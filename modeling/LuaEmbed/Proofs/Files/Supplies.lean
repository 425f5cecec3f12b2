import LuaEmbed.World.Transfer

/-!
# What is read through a buffer

A view says which bytes are left at a place of a supply.  Taking bytes takes them off the front, so
a buffer has a view as well: the bytes at hand and those behind them.  However a read splits its work
into chunks and requests, it gives the bytes that its format asks for and leaves the others.
-/

namespace LuaEmbed

/-- The bytes that are left at the valid places of a supply.  Bytes are taken off their front, and
some whenever there are any. -/
structure Supply.View {σ : Type} (s : Supply σ) where
  Valid : σ → Prop
  left : σ → List UInt8
  valid_take (k : Nat) {p : σ} : Valid p → Valid (s.take k p).2
  take_append (k : Nat) {p : σ} : Valid p → (s.take k p).1 ++ left (s.take k p).2 = left p
  length_take_le (k : Nat) {p : σ} : Valid p → (s.take k p).1.length ≤ k
  take_eq_nil {k : Nat} {p : σ} : Valid p → (s.take k p).1 = [] → k = 0 ∨ left p = []
  size_eq {p : σ} : Valid p → s.size p = (left p).length

namespace Supply.View

variable {σ : Type} {s : Supply σ} {v : s.View} {b : Buffered σ} {k n : Nat} {bs : List UInt8}

/-- The bytes of a list are left to it. -/
def list : Supply.list.View where
  Valid _ := True
  left bs := bs
  valid_take _ _ _ := trivial
  take_append _ _ _ := List.take_append_drop ..
  length_take_le _ _ _ := List.length_take_le ..
  take_eq_nil _ h := List.take_eq_nil_iff.1 h
  size_eq _ := rfl

theorem extract_toList (content : ByteArray) (p k : Nat) :
    (content.extract p (p + k)).data.toList = (content.data.toList.drop p).take k := by
  rw [ByteArray.data_extract, Array.toList_extract, List.extract_eq_take_drop,
    Nat.add_sub_cancel_left]

theorem size_extract_add (content : ByteArray) (p k : Nat) :
    (content.extract p (p + k)).size = ((content.data.toList.drop p).take k).length := by
  rw [← extract_toList]
  rfl

/-- The bytes of a content from an offset on are left there. -/
def content (content : ByteArray) : (Supply.content content).View where
  Valid p := p ≤ content.size
  left p := content.data.toList.drop p
  valid_take k p hp := by
    change p + (content.extract p (p + k)).size ≤ content.size
    have hsize : content.data.toList.length = content.size := rfl
    rw [size_extract_add, List.length_take, List.length_drop]
    omega
  take_append k p _ := by
    change (content.extract p (p + k)).data.toList ++
      content.data.toList.drop (p + (content.extract p (p + k)).size) = _
    rw [extract_toList, size_extract_add, ← List.drop_drop, List.length_take]
    rcases Nat.le_total k (content.data.toList.drop p).length with hk | hk
    · rw [Nat.min_eq_left hk, List.take_append_drop]
    · rw [Nat.min_eq_right hk, List.drop_length, List.append_nil, List.take_of_length_le hk]
  length_take_le k p _ := by
    change (content.extract p (p + k)).data.toList.length ≤ k
    rw [extract_toList]
    exact List.length_take_le ..
  take_eq_nil {k p} _ h := by
    change (content.extract p (p + k)).data.toList = [] at h
    rw [extract_toList] at h
    exact List.take_eq_nil_iff.1 h
  size_eq {p} _ := (List.length_drop ..).symm

/-! ## Buffers -/

/-- A buffer over a valid place. -/
def ValidBuffer (v : s.View) (b : Buffered σ) : Prop := v.Valid b.place

/-- The bytes at hand, and those behind them. -/
def leftBehind (v : s.View) (b : Buffered σ) : List UInt8 := b.ahead ++ v.left b.place

/-- A read takes some bytes off the front of those that are left. -/
structure Takes (v : s.View) (b : Buffered σ) (bs : List UInt8) (r : List UInt8 × Buffered σ) :
    Prop where
  taken : r.1 = bs
  valid : v.ValidBuffer r.2
  append : bs ++ v.leftBehind r.2 = v.leftBehind b

theorem Takes.none (hb : v.ValidBuffer b) : v.Takes b [] ([], b) := ⟨rfl, hb, rfl⟩

theorem Takes.leftBehind_eq {r : List UInt8 × Buffered σ} (h : v.Takes b bs r) :
    v.leftBehind r.2 = (v.leftBehind b).drop bs.length := by
  rw [← h.append, List.drop_left]

theorem Takes.leftBehind_of_take {r : List UInt8 × Buffered σ}
    (h : v.Takes b ((v.leftBehind b).take n) r) : v.leftBehind r.2 = (v.leftBehind b).drop n :=
  List.append_cancel_left (h.append.trans (List.take_append_drop n _).symm)

/-- One read after another takes the bytes of both. -/
theorem Takes.trans {b' : Buffered σ} {cs : List UInt8} {r : List UInt8 × Buffered σ}
    (h : v.Takes b bs (bs, b')) (h' : v.Takes b' cs r) : v.Takes b (bs ++ cs) (bs ++ r.1, r.2) :=
  ⟨congrArg (bs ++ ·) h'.taken, h'.valid, by rw [List.append_assoc, h'.append, h.append]⟩

/-- What a read has not taken of a number of bytes is taken by another one. -/
theorem Takes.then_take {b' : Buffered σ} {r : List UInt8 × Buffered σ}
    (h : v.Takes b bs (bs, b')) (hn : bs.length ≤ n)
    (h' : v.Takes b' ((v.leftBehind b').take (n - bs.length)) r) :
    v.Takes b ((v.leftBehind b).take n) (bs ++ r.1, r.2) := by
  have hsplit : bs ++ (v.leftBehind b').take (n - bs.length) = (v.leftBehind b).take n := by
    rw [← h.append, List.take_append, List.take_of_length_le hn]
  rw [← hsplit]
  exact h.trans h'

theorem valid_fill (hb : v.ValidBuffer b) : v.ValidBuffer (s.fill b) := by
  unfold fill
  split
  · exact v.valid_take _ hb
  · exact hb

@[simp] theorem leftBehind_fill (hb : v.ValidBuffer b) :
    v.leftBehind (s.fill b) = v.leftBehind b := by
  unfold fill
  split
  · next hnone =>
    rw [leftBehind, leftBehind, List.isEmpty_iff.1 hnone]
    exact v.take_append _ hb
  · rfl

/-- Nothing is at hand after a chunk has been taken only if nothing is left. -/
theorem leftBehind_eq_nil_of_fill (hb : v.ValidBuffer b) (h : (s.fill b).ahead = []) :
    v.leftBehind b = [] := by
  unfold fill at h
  split at h
  · next hnone =>
    rw [leftBehind, List.isEmpty_iff.1 hnone]
    exact (v.take_eq_nil hb h).resolve_left (by decide)
  · next hsome => exact absurd (List.isEmpty_iff.2 h) hsome

theorem fill_ahead_isEmpty (hb : v.ValidBuffer b) :
    (s.fill b).ahead.isEmpty = (v.leftBehind b).isEmpty := by
  rw [Bool.eq_iff_iff, List.isEmpty_iff, List.isEmpty_iff]
  refine ⟨leftBehind_eq_nil_of_fill hb, fun h ↦ ?_⟩
  rw [← leftBehind_fill hb] at h
  exact (List.append_eq_nil_iff.1 h).1

theorem takes_fill (hb : v.ValidBuffer b) : v.Takes b [] ([], s.fill b) :=
  ⟨rfl, valid_fill hb, leftBehind_fill hb⟩

/-- A request takes at most what it asks for. -/
theorem takes_request (hb : v.ValidBuffer b) (k : Nat) :
    v.Takes b (s.request k b).1 (s.request k b) := by
  unfold request
  split
  · next hpast =>
    have hnone : b.ahead = [] := List.isEmpty_iff.1 (Bool.and_eq_true_iff.1 hpast).1
    refine ⟨rfl, v.valid_take _ hb, ?_⟩
    rw [leftBehind, leftBehind, hnone]
    exact v.take_append _ hb
  · refine ⟨rfl, valid_fill hb, ?_⟩
    dsimp only
    rw [leftBehind, ← List.append_assoc, List.take_append_drop]
    exact leftBehind_fill hb

theorem length_request_le (hb : v.ValidBuffer b) (k : Nat) : (s.request k b).1.length ≤ k := by
  unfold request
  split
  · exact v.length_take_le _ hb
  · exact List.length_take_le ..

theorem request_eq_nil (hb : v.ValidBuffer b) (h : (s.request k b).1 = []) :
    k = 0 ∨ v.leftBehind b = [] := by
  unfold request at h
  split at h
  · next hpast =>
    rw [leftBehind, List.isEmpty_iff.1 (Bool.and_eq_true_iff.1 hpast).1]
    exact v.take_eq_nil hb h
  · exact (List.take_eq_nil_iff.1 h).imp_right (leftBehind_eq_nil_of_fill hb)

theorem remaining_eq (hb : v.ValidBuffer b) : s.remaining b = (v.leftBehind b).length := by
  rw [remaining, leftBehind, List.length_append, v.size_eq hb]

/-- A buffer is viewed as what is behind it. -/
def buffered (v : s.View) : s.buffered.View where
  Valid := v.ValidBuffer
  left := v.leftBehind
  valid_take k _ hb := (takes_request hb k).valid
  take_append k _ hb := (takes_request hb k).append
  length_take_le k _ hb := length_request_le hb k
  take_eq_nil hb := request_eq_nil hb
  size_eq := remaining_eq

/-! ## Lines and everything -/

/-- The first line of bytes, with the line feed that ends it if there is one. -/
def firstLine : List UInt8 → List UInt8
  | [] => []
  | b :: bs => if b == lineFeed then [b] else b :: firstLine bs

/-- A line feed ends the first line, whatever comes behind it. -/
theorem firstLine_append_of_dropWhile {rest : List UInt8} {b : UInt8}
    (h : bs.dropWhile (· != lineFeed) = b :: rest) (cs : List UInt8) :
    firstLine (bs ++ cs) = bs.takeWhile (· != lineFeed) ++ [b] ∧
      bs = bs.takeWhile (· != lineFeed) ++ b :: rest := by
  induction bs with
  | nil => exact nomatch h
  | cons c bs ih =>
      rw [List.cons_append, firstLine]
      cases hc : c == lineFeed with
      | true =>
          rw [List.dropWhile_cons, bne, hc] at h
          obtain ⟨rfl, rfl⟩ := List.cons.inj h
          rw [List.takeWhile_cons, bne, hc]
          exact ⟨rfl, rfl⟩
      | false =>
          rw [List.dropWhile_cons, bne, hc] at h
          rw [List.takeWhile_cons, bne, hc]
          obtain ⟨hline, hbs⟩ := ih h
          exact ⟨congrArg (c :: ·) hline, congrArg (c :: ·) hbs⟩

/-- A line that is not ended goes on with what comes behind it. -/
theorem firstLine_append_of_dropWhile_nil (h : bs.dropWhile (· != lineFeed) = [])
    (cs : List UInt8) :
    firstLine (bs ++ cs) = bs ++ firstLine cs ∧ bs.takeWhile (· != lineFeed) = bs := by
  induction bs with
  | nil => exact ⟨rfl, rfl⟩
  | cons c bs ih =>
      rw [List.cons_append, firstLine]
      cases hc : c == lineFeed with
      | true =>
          rw [List.dropWhile_cons, bne, hc] at h
          exact nomatch h
      | false =>
          rw [List.dropWhile_cons, bne, hc] at h
          rw [List.takeWhile_cons, bne, hc]
          obtain ⟨hline, hbs⟩ := ih h
          exact ⟨congrArg (c :: ·) hline, congrArg (c :: ·) hbs⟩

/-- After a chunk has been taken, there are fewer bytes behind it than were left, or none at all. -/
theorem length_left_fill_lt (hb : v.ValidBuffer b) (h : (s.fill b).ahead ≠ []) :
    (v.left (s.fill b).place).length < (v.leftBehind b).length := by
  rw [← leftBehind_fill hb, leftBehind, List.length_append]
  exact Nat.lt_add_of_pos_left (List.length_pos_iff.2 h)

theorem takes_takeLine {fuel : Nat} (hb : v.ValidBuffer b) (hfuel : (v.leftBehind b).length < fuel) :
    v.Takes b (firstLine (v.leftBehind b)) (s.takeLine fuel b) := by
  induction fuel generalizing b with
  | zero => exact absurd hfuel (Nat.not_lt_zero _)
  | succ fuel ih =>
      have hfill := leftBehind_fill hb
      rw [takeLine]
      dsimp only
      split
      · next lf rest hdrop =>
        obtain ⟨hline, hahead⟩ := firstLine_append_of_dropWhile hdrop (v.left (s.fill b).place)
        rw [← leftBehind, hfill] at hline
        refine ⟨hline.symm, valid_fill hb, ?_⟩
        rw [hline, ← hfill, leftBehind, leftBehind, List.append_assoc, List.singleton_append,
          ← List.cons_append, ← List.append_assoc, ← hahead]
      · next hdrop =>
        obtain ⟨hline, hstart⟩ :=
          firstLine_append_of_dropWhile_nil hdrop (v.left (s.fill b).place)
        rw [← leftBehind, hfill] at hline
        rw [hstart]
        split
        · next hnone =>
          rw [leftBehind_eq_nil_of_fill hb (List.isEmpty_iff.1 hnone)]
          exact takes_fill hb
        · next hsome =>
          have hlt := length_left_fill_lt hb (mt List.isEmpty_iff.2 hsome)
          have hrest := ih (b := ⟨[], (s.fill b).place⟩) (valid_fill hb)
            (Nat.lt_of_lt_of_le hlt (Nat.le_of_lt_succ hfuel))
          have hchunk : v.Takes b (s.fill b).ahead ((s.fill b).ahead, ⟨[], (s.fill b).place⟩) :=
            ⟨rfl, valid_fill hb, hfill⟩
          rw [hline]
          exact hchunk.trans hrest

theorem takes_takeAll {fuel : Nat} (hb : v.ValidBuffer b) (hfuel : (v.leftBehind b).length < fuel) :
    v.Takes b (v.leftBehind b) (s.takeAll fuel b) := by
  induction fuel generalizing b with
  | zero => exact absurd hfuel (Nat.not_lt_zero _)
  | succ fuel ih =>
      have hfill := leftBehind_fill hb
      rw [takeAll]
      dsimp only
      split
      · next hnone =>
        rw [leftBehind_eq_nil_of_fill hb (List.isEmpty_iff.1 hnone)]
        exact takes_fill hb
      · next hsome =>
        have hlt := length_left_fill_lt hb (mt List.isEmpty_iff.2 hsome)
        have hrest := ih (b := ⟨[], (s.fill b).place⟩) (valid_fill hb)
          (Nat.lt_of_lt_of_le hlt (Nat.le_of_lt_succ hfuel))
        have hchunk : v.Takes b (s.fill b).ahead ((s.fill b).ahead, ⟨[], (s.fill b).place⟩) :=
          ⟨rfl, valid_fill hb, hfill⟩
        have hall := hchunk.trans hrest
        rw [leftBehind, List.nil_append, ← leftBehind, hfill] at hall
        exact hall

/-- A line is read up to the line feed that ends it, or to the end. -/
theorem takes_line (hb : v.ValidBuffer b) :
    v.Takes b (firstLine (v.leftBehind b)) (s.line b) :=
  takes_takeLine hb (by rw [remaining_eq hb]; exact Nat.lt_succ_self _)

/-- Everything is read up to the end. -/
theorem takes_all (hb : v.ValidBuffer b) : v.Takes b (v.leftBehind b) (s.all b) :=
  takes_takeAll hb (by rw [remaining_eq hb]; exact Nat.lt_succ_self _)

/-! ## Counted bytes -/

/-- The store holds no more than it has room for, and requests may ask for something. -/
structure Stocked (c : Collection) : Prop where
  size_le : c.size ≤ c.room
  limit_pos : 0 < c.limit

/-- A store that grows when it is full has room for more. -/
theorem Stocked.asked_grow_pos {c : Collection} (h : Stocked c) : 0 < c.grow.asked := by
  obtain ⟨hsize, hlimit⟩ := h
  unfold Collection.grow Collection.asked
  split
  · have hmargin : Collection.margin = 32 := rfl
    dsimp only
    omega
  · next hroom =>
    have hne : c.size ≠ c.room := mt beq_iff_eq.2 hroom
    omega

theorem wanted_grow (c : Collection) : c.grow.wanted = c.wanted := by
  unfold Collection.grow
  split <;> rfl

theorem Stocked.grow {c : Collection} (h : Stocked c) : Stocked c.grow := by
  obtain ⟨hsize, hlimit⟩ := h
  unfold Collection.grow
  split
  · exact ⟨by dsimp only; omega, hlimit⟩
  · exact ⟨hsize, hlimit⟩

theorem Stocked.add {c : Collection} (h : Stocked c) (hk : k ≤ c.asked) : Stocked (c.add k) := by
  obtain ⟨hsize, hlimit⟩ := h
  refine ⟨?_, ?_⟩
  · change c.size + k ≤ c.room
    unfold Collection.asked at hk
    omega
  · unfold Collection.add
    dsimp only
    split <;> omega

theorem Stocked.start (n size : Nat) : Stocked (.start n size) :=
  ⟨Nat.le_max_right .., by change 0 < chunkSize; decide⟩

/-- A read goes on until it has what it wants, or there is nothing left. -/
theorem takes_collect {fuel : Nat} {c : Collection} (hb : v.ValidBuffer b) (hc : Stocked c)
    (hfuel : (v.leftBehind b).length < fuel) :
    v.Takes b ((v.leftBehind b).take c.wanted) (s.collect fuel c b) := by
  induction fuel generalizing b c with
  | zero => exact absurd hfuel (Nat.not_lt_zero _)
  | succ fuel ih =>
      rw [collect]
      dsimp only
      rw [wanted_grow]
      split
      · next hdone =>
        rw [beq_iff_eq.1 hdone, List.take_zero]
        exact .none hb
      · next hmore =>
        have hwanted : c.wanted ≠ 0 := mt beq_iff_eq.2 hmore
        have hasked := hc.asked_grow_pos
        have hrequest := takes_request hb (min c.grow.asked c.wanted)
        have hlength := length_request_le hb (min c.grow.asked c.wanted)
        split
        · next b' heq =>
          rw [heq] at hrequest
          have hnone := request_eq_nil hb (congrArg Prod.fst heq)
          rw [hnone.resolve_left (by omega), List.take_nil]
          exact hrequest
        · next bytes b' hne heq =>
          rw [heq] at hrequest hlength
          change v.Takes b bytes (bytes, b') at hrequest
          change bytes.length ≤ _ at hlength
          have hpos : 0 < bytes.length := List.length_pos_iff.2 hne
          have hshorter : (v.leftBehind b').length < fuel := by
            have hleft : bytes.length + (v.leftBehind b').length = (v.leftBehind b).length := by
              rw [← List.length_append, ← hrequest.append]
            omega
          have hrest := ih hrequest.valid (hc.grow.add (k := bytes.length) (by omega)) hshorter
          have hwanted : (c.grow.add bytes.length).wanted = c.wanted - bytes.length :=
            congrArg (· - bytes.length) (wanted_grow c)
          rw [hwanted] at hrest
          exact hrequest.then_take (by omega) hrest

/-- A read of a number of bytes takes that many, or all. -/
theorem takes_count (hb : v.ValidBuffer b) (n : Nat) :
    v.Takes b ((v.leftBehind b).take n) (s.count n b) := by
  unfold count
  split
  · next hzero =>
    rw [beq_iff_eq.1 hzero, List.take_zero]
    exact .none hb
  · next hmore =>
    have hn : n ≠ 0 := mt beq_iff_eq.2 hmore
    have hmargin : Collection.margin = 32 := rfl
    have hrequest := takes_request hb (min Collection.margin n)
    have hlength := length_request_le hb (min Collection.margin n)
    split
    · next b' heq =>
      rw [heq] at hrequest
      have hnone := request_eq_nil hb (congrArg Prod.fst heq)
      rw [hnone.resolve_left (by omega), List.take_nil]
      exact hrequest
    · next bytes b' hne heq =>
      rw [heq] at hrequest hlength
      change v.Takes b bytes (bytes, b') at hrequest
      change bytes.length ≤ _ at hlength
      have hfuel : (v.leftBehind b').length < s.remaining b' + 1 := by
        rw [remaining_eq hrequest.valid]
        exact Nat.lt_succ_self _
      have hrest := takes_collect hrequest.valid (.start n bytes.length) hfuel
      exact hrequest.then_take (by omega) hrest

end Supply.View

/-! ## Formats -/

open Supply.View (firstLine)

/-- What a read of a format gives of bytes, and the bytes behind what it takes. -/
def ReadFormat.reads (format : ReadFormat) (bs : List UInt8) :
    Except FileFault ReadResult × List UInt8 :=
  match format with
  | .count n =>
    (.ok (if bs.isEmpty then .endOfInput else .text (Text.decode (bs.take n))), bs.drop n)
  | .all => (.ok (.text (Text.decode bs)), [])
  | .number =>
    (if bs.isEmpty then .ok .endOfInput
      else
        match Text.decodeExact? (firstLine bs) with
        | some text => .ok (.number (Number.ofString? text))
        | none => .error .invalidText,
      bs.drop (firstLine bs).length)
  | .line =>
    (.ok (if bs.isEmpty then .endOfInput
      else .text (Text.decode (ReadFormat.dropLineFeed (firstLine bs)))),
      bs.drop (firstLine bs).length)

namespace Supply.View

variable {σ : Type} {s : Supply σ} {v : s.View} {b : Buffered σ}

theorem firstLine_isEmpty (bs : List UInt8) : (firstLine bs).isEmpty = bs.isEmpty := by
  cases bs with
  | nil => rfl
  | cons b bs => rw [firstLine]; split <;> rfl

/-- At the end of input there is no number of bytes, not even zero. -/
theorem read_count (hb : v.ValidBuffer b) (n : Nat) :
    (s.read (.count n) b).1 = ((ReadFormat.count n).reads (v.leftBehind b)).1 ∧
      v.leftBehind (s.read (.count n) b).2 = ((ReadFormat.count n).reads (v.leftBehind b)).2 ∧
      v.ValidBuffer (s.read (.count n) b).2 := by
  have hcount := takes_count hb n
  have hleft := hcount.leftBehind_of_take
  rw [read, ReadFormat.reads]
  dsimp only
  rw [hcount.taken]
  cases n with
  | zero =>
      have hend := fill_ahead_isEmpty hcount.valid
      rw [hleft, List.drop_zero] at hend
      simp only [beq_self_eq_true, if_true, hend, List.take_zero, List.isEmpty_nil, Bool.true_and,
        Nat.lt_irrefl, decide_false, Bool.false_or]
      split <;> exact ⟨rfl, (leftBehind_fill hcount.valid).trans hleft, valid_fill hcount.valid⟩
  | succ n =>
      have hend : ((v.leftBehind b).take (n + 1)).isEmpty = (v.leftBehind b).isEmpty := by
        cases v.leftBehind b <;> rfl
      have hsome : (n + 1 == 0) = false := rfl
      simp only [hsome, Bool.false_eq_true, if_false, hend, Nat.zero_lt_succ, decide_true,
        Bool.true_or, Bool.and_true]
      split <;> exact ⟨rfl, hleft, hcount.valid⟩

/-- A read through a buffer is a read of the bytes that are left. -/
theorem read_eq (hb : v.ValidBuffer b) (format : ReadFormat) :
    (s.read format b).1 = (format.reads (v.leftBehind b)).1 ∧
      v.leftBehind (s.read format b).2 = (format.reads (v.leftBehind b)).2 ∧
      v.ValidBuffer (s.read format b).2 := by
  cases format with
  | count n => exact read_count hb n
  | all =>
      have hall := takes_all hb
      have hleft := hall.leftBehind_eq
      rw [List.drop_length] at hleft
      rw [read, ReadFormat.reads]
      dsimp only
      rw [hall.taken]
      exact ⟨rfl, hleft, hall.valid⟩
  | number =>
      have hline := takes_line hb
      rw [read, ReadFormat.reads]
      dsimp only
      rw [hline.taken, firstLine_isEmpty]
      split
      · exact ⟨rfl, hline.leftBehind_eq, hline.valid⟩
      · cases Text.decodeExact? (firstLine (v.leftBehind b)) <;>
          exact ⟨rfl, hline.leftBehind_eq, hline.valid⟩
  | line =>
      have hline := takes_line hb
      rw [read, ReadFormat.reads]
      dsimp only
      rw [hline.taken, firstLine_isEmpty]
      split
      · exact ⟨rfl, hline.leftBehind_eq, hline.valid⟩
      · exact ⟨rfl, hline.leftBehind_eq, hline.valid⟩

end Supply.View

end LuaEmbed
