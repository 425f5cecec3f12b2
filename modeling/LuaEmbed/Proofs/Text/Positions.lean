import LuaEmbed.Library.Strings
import LuaEmbed.Proofs.Numbers.Integers
import LuaEmbed.Proofs.Runs.Reads
import LuaEmbed.Proofs.Text.Decoding

/-!
# Positions in texts

The positions of a text of `n` bytes are `1, …, n`, and a negative index counts from the end, `-1`
being the last position.  What `byte` and `sub` take are the bytes at the positions between two
indices, and what `find` looks for is the least position from an index on at which the bytes of
another text stand.
-/

namespace LuaEmbed.Text

/-! ## Bytes at positions -/

/-- The position that an index means in a text of `n` bytes.  It may be none of them. -/
def position (n : ℕ) (i : ℤ) : ℤ := if i < 0 then n + 1 + i else i

/-- The least position from an index on. -/
def lower (n : ℕ) (i : ℤ) : ℤ := max 1 (position n i)

/-- The greatest position up to an index. -/
def upper (n : ℕ) (j : ℤ) : ℤ := min n (position n j)

/-- The bytes of a text at the positions from one index up to another. -/
def bytesAt (s : String) (i j : ℤ) : List UInt8 :=
  (((bytes s).zipIdx 1).filter fun (_, p) ↦
    decide (lower s.utf8ByteSize i ≤ p ∧ p ≤ upper s.utf8ByteSize j)).map Prod.fst

/-- There is no character that belongs both to the first `k` bytes of a text and to the others. -/
def IsBoundary (s : String) (k : ℕ) : Prop := ∃ t u, s = t ++ u ∧ t.utf8ByteSize = k

/-- The bytes of `t` stand in `s` from position `a` on. -/
def OccursAt (s t : String) (a : ℕ) : Prop :=
  1 ≤ a ∧ bytesAt s a (a + t.utf8ByteSize - 1) = bytes t

/-- The position at which a search starts, which is at most the one behind all bytes. -/
def start (n : ℕ) (i : ℤ) : ℤ := min (n + 1) (lower n i)

/-- The least position from an index on at which `t` stands in `s`. -/
structure FirstOccurrence (s t : String) (i : ℤ) (a : ℕ) : Prop where
  start_le : start s.utf8ByteSize i ≤ a
  occurs : OccursAt s t a
  least : ∀ b : ℕ, start s.utf8ByteSize i ≤ b → b < a → ¬OccursAt s t b

/-- The elements whose places, counted from `k`, lie between two bounds. -/
theorem map_fst_filter_zipIdx {α : Type} (l : List α) (k : ℕ) (a b : ℤ) :
    ((l.zipIdx k).filter fun (_, p) ↦ decide (a ≤ p ∧ p ≤ b)).map Prod.fst =
      (l.take (b + 1 - k).toNat).drop (a - k).toNat := by
  induction l generalizing k with
  | nil => simp
  | cons x l ih =>
      have hrest := ih (k + 1)
      rw [List.zipIdx_cons, List.filter_cons]
      rcases lt_or_ge b k with hb | hb
      · have hstop : (b + 1 - k).toNat = 0 := by omega
        have hstop' : (b + 1 - (k + 1 : ℕ)).toNat = 0 := by omega
        rw [if_neg (by simp; omega), hrest, hstop, hstop', List.take_zero, List.take_zero,
          List.drop_nil, List.drop_nil]
      · have hstop : (b + 1 - k).toNat = (b + 1 - (k + 1 : ℕ)).toNat + 1 := by omega
        rw [hstop, List.take_succ_cons]
        rcases lt_or_ge (k : ℤ) a with ha | ha
        · have hstart : (a - k).toNat = (a - (k + 1 : ℕ)).toNat + 1 := by omega
          rw [if_neg (by simp; omega), hrest, hstart, List.drop_succ_cons]
        · have hstart : (a - k).toNat = 0 := by omega
          have hstart' : (a - (k + 1 : ℕ)).toNat = 0 := by omega
          rw [if_pos (by simp; omega), List.map_cons, hrest, hstart, hstart', List.drop_zero,
            List.drop_zero]

variable {s t : String} {i j : ℤ} {a : ℕ}

theorem bytesAt_eq (s : String) (i j : ℤ) :
    bytesAt s i j =
      ((bytes s).take (upper s.utf8ByteSize j).toNat).drop (lower s.utf8ByteSize i - 1).toNat := by
  rw [bytesAt, map_fst_filter_zipIdx, Nat.cast_one, add_sub_cancel_right]

/-- A text stands where the bytes that follow start with its own. -/
theorem occursAt_succ_iff : OccursAt s t (a + 1) ↔ bytes t <+: (bytes s).drop a := by
  have hlower : (lower s.utf8ByteSize (a + 1 : ℕ) - 1).toNat = a := by
    simp only [lower, position]
    omega
  have hupper : (upper s.utf8ByteSize ((a + 1 : ℕ) + t.utf8ByteSize - 1)).toNat =
      min s.utf8ByteSize (a + t.utf8ByteSize) := by
    simp only [upper, position]
    omega
  have hall : (bytes s).take (min s.utf8ByteSize (a + t.utf8ByteSize)) =
      (bytes s).take (a + t.utf8ByteSize) := by
    rw [min_comm, ← List.take_take, List.take_of_length_le (length_bytes s).le]
  rw [OccursAt, and_iff_right (Nat.le_add_left 1 a), bytesAt_eq, hlower, hupper, hall,
    ← List.take_drop, List.prefix_iff_eq_take, eq_comm, length_bytes]

theorem FirstOccurrence.unique {b : ℕ} (ha : FirstOccurrence s t i a)
    (hb : FirstOccurrence s t i b) : a = b := by
  rcases Nat.lt_trichotomy a b with hlt | rfl | hlt
  · exact absurd ha.occurs (hb.least a ha.start_le hlt)
  · rfl
  · exact absurd hb.occurs (ha.least b hb.start_le hlt)

/-! ## Cuts between characters -/

/-- Of two beginnings of a text the shorter one is a beginning of the longer one. -/
theorem exists_eq_append {t t' u u' : String} (h : t ++ u = t' ++ u')
    (hle : t.utf8ByteSize ≤ t'.utf8ByteSize) : ∃ m, t' = t ++ m := by
  have hlist : t.toList ++ u.toList = t'.toList ++ u'.toList := by
    rw [← String.toList_append, h, String.toList_append]
  rcases List.append_eq_append_iff.1 hlist with ⟨m, hm, -⟩ | ⟨m, hm, -⟩
  · exact ⟨.ofList m, String.toList_inj.1 (by rw [hm, String.toList_append, String.toList_ofList])⟩
  · have ht : t = t' ++ .ofList m :=
      String.toList_inj.1 (by rw [hm, String.toList_append, String.toList_ofList])
    have hempty : (String.ofList m).utf8ByteSize = 0 := by
      rw [ht, String.utf8ByteSize_append] at hle
      omega
    rw [String.utf8ByteSize_eq_zero_iff.1 hempty, String.append_empty] at ht
    exact ⟨"", by rw [ht, String.append_empty]⟩

/-- What is cut out between characters is a text. -/
theorem exists_bytes_eq {k l : ℕ} (hk : IsBoundary s k) (hl : IsBoundary s l) :
    ∃ m, ((bytes s).take l).drop k = bytes m := by
  obtain ⟨t, u, hs, rfl⟩ := hk
  obtain ⟨t', u', hs', rfl⟩ := hl
  have htake : (bytes s).take t'.utf8ByteSize = bytes t' := by
    rw [hs', bytes_append, ← length_bytes, List.take_left]
  rw [htake]
  rcases Nat.le_total t.utf8ByteSize t'.utf8ByteSize with hle | hle
  · obtain ⟨m, rfl⟩ := exists_eq_append (hs.symm.trans hs') hle
    exact ⟨m, by rw [bytes_append, ← length_bytes, List.drop_left]⟩
  · exact ⟨"", List.drop_eq_nil_of_le hle⟩

/-- Bytes that are cut out between characters are read as they are. -/
theorem bytes_decode_bytesAt (hi : IsBoundary s (lower s.utf8ByteSize i - 1).toNat)
    (hj : IsBoundary s (upper s.utf8ByteSize j).toNat) :
    bytes (decode (bytesAt s i j)) = bytesAt s i j := by
  obtain ⟨m, hm⟩ := exists_bytes_eq hi hj
  rw [bytesAt_eq, hm, decode_bytes]

end LuaEmbed.Text

namespace LuaEmbed.Library.Strings

open Text

variable {s t : String} {i j : ℤ} {a k p : ℕ} {needle bs : List UInt8}

/-! ## Cutting out -/

theorem startOf_eq (n : ℕ) (i : ℤ) : startOf n i = min n (lower n i - 1).toNat := by
  simp only [startOf, lower, position]
  split <;> split <;> omega

theorem endOf_eq (n : ℕ) (j : ℤ) : endOf n j = (upper n j).toNat := by
  simp only [endOf, upper, position]
  split <;> split <;> omega

theorem bytesBetween_eq (s : String) (i j : ℤ) : bytesBetween s i j = bytesAt s i j := by
  have hdrop (l : List UInt8) (k : ℕ) (hl : l.length ≤ s.utf8ByteSize) :
      l.drop (min s.utf8ByteSize k) = l.drop k := by
    rcases Nat.le_total s.utf8ByteSize k with hk | hk
    · rw [min_eq_left hk, List.drop_eq_nil_of_le hl, List.drop_eq_nil_of_le (hl.trans hk)]
    · rw [min_eq_right hk]
  rw [bytesBetween, ByteArray.data_extract, Array.toList_extract, List.extract_eq_take_drop,
    ← List.drop_take, bytesAt_eq, startOf_eq, endOf_eq]
  exact hdrop _ _ ((List.length_take_le' _ _).trans_eq (length_bytes s))

/-! ## Searching -/

/-- What is found is the least place at which the list searched goes on with the needle. -/
theorem findFrom_eq_some (h : findFrom needle bs k = some p) :
    ∃ m, p = k + m ∧ needle <+: bs.drop m ∧ ∀ m' < m, ¬needle <+: bs.drop m' := by
  induction bs generalizing k with
  | nil =>
      rw [findFrom] at h
      split at h
      · next hempty =>
        obtain rfl := List.isEmpty_iff.1 hempty
        exact ⟨0, (Option.some.inj h).symm, List.nil_prefix, nofun⟩
      · exact nomatch h
  | cons b bs ih =>
      rw [findFrom] at h
      split at h
      · next hstarts =>
        exact ⟨0, (Option.some.inj h).symm, List.isPrefixOf_iff_prefix.1 hstarts, nofun⟩
      · next hstarts =>
        obtain ⟨m, rfl, hfound, hleast⟩ := ih h
        refine ⟨m + 1, by omega, hfound, fun m' hm' ↦ ?_⟩
        cases m' with
        | zero => exact mt List.isPrefixOf_iff_prefix.2 hstarts
        | succ m' => exact hleast m' (by omega)

theorem findFrom_eq_none (h : findFrom needle bs k = none) (m : ℕ) : ¬needle <+: bs.drop m := by
  induction bs generalizing k m with
  | nil =>
      rw [findFrom] at h
      split at h
      · exact nomatch h
      · next hempty =>
        rw [List.drop_nil, List.prefix_nil]
        exact mt List.isEmpty_iff.2 hempty
  | cons b bs ih =>
      rw [findFrom] at h
      split at h
      · exact nomatch h
      · next hstarts =>
        cases m with
        | zero => exact mt List.isPrefixOf_iff_prefix.2 hstarts
        | succ m => exact ih h m

theorem start_eq (n : ℕ) (i : ℤ) : start n i = startOf n i + 1 := by
  rw [startOf_eq, start, lower]
  omega

/-- A search starts at the index and finds the first occurrence. -/
theorem firstOccurrence_of_findFrom (h : findFrom (bytes t)
    ((bytes s).drop (startOf s.utf8ByteSize i)) (startOf s.utf8ByteSize i) = some p) :
    FirstOccurrence s t i (p + 1) := by
  obtain ⟨m, rfl, hfound, hleast⟩ := findFrom_eq_some h
  have hstart := start_eq s.utf8ByteSize i
  rw [List.drop_drop] at hfound
  refine ⟨by omega, occursAt_succ_iff.2 hfound, fun b hb hlt ↦ ?_⟩
  obtain ⟨m', rfl⟩ : ∃ m', b = startOf s.utf8ByteSize i + m' + 1 :=
    ⟨b - 1 - startOf s.utf8ByteSize i, by omega⟩
  have hout := hleast m' (by omega)
  rw [List.drop_drop] at hout
  exact mt occursAt_succ_iff.1 hout

theorem not_firstOccurrence_of_findFrom (h : findFrom (bytes t)
    ((bytes s).drop (startOf s.utf8ByteSize i)) (startOf s.utf8ByteSize i) = none) :
    ¬FirstOccurrence s t i a := by
  rintro ⟨hle, hoccurs, -⟩
  rw [start_eq] at hle
  obtain ⟨m, rfl⟩ : ∃ m, a = startOf s.utf8ByteSize i + m + 1 :=
    ⟨a - 1 - startOf s.utf8ByteSize i, by omega⟩
  have hout := findFrom_eq_none h m
  rw [List.drop_drop] at hout
  exact hout (occursAt_succ_iff.1 hoccurs)

/-! ## Functions -/

variable {args : Arguments}

theorem byte_eq (hs : args.arg 1 = .string s) (hi : args.opt .integer 2 1 = pure i)
    (hj : args.opt .integer 3 i = pure j) :
    byte args = pure ((bytesAt s i j).map fun b ↦ .number (Number.ofNat b.toNat)) := by
  rw [byte, Arguments.check_string hs, pure_bind, hi, pure_bind, hj, pure_bind, bytesBetween_eq]

theorem sub_eq (hs : args.arg 1 = .string s) (hi : args.opt .integer 2 1 = pure i)
    (hj : args.opt .integer 3 (-1) = pure j) :
    sub args = pure [.string (decode (bytesAt s i j))] := by
  rw [sub, Arguments.check_string hs, pure_bind, hi, pure_bind, hj, pure_bind, between, slice,
    ← bytesBetween_eq]
  rfl

theorem find_eq (hs : args.arg 1 = .string s) (ht : args.arg 2 = .string t)
    (hi : args.opt .integer 3 1 = pure i) :
    (∀ a, FirstOccurrence s t i a → find args =
        pure [.number (Number.ofNat a), .number (Number.ofNat (a + t.utf8ByteSize - 1))]) ∧
      ((¬∃ a, FirstOccurrence s t i a) → find args = pure [.nil]) := by
  rw [find, Arguments.check_string hs, pure_bind, Arguments.check_string ht, pure_bind, hi,
    pure_bind]
  dsimp only
  cases hfound : findFrom (bytes t) ((bytes s).drop (startOf s.utf8ByteSize i))
      (startOf s.utf8ByteSize i) with
  | some p =>
      have hfirst := firstOccurrence_of_findFrom hfound
      refine ⟨fun a ha ↦ ?_, fun hnone ↦ absurd ⟨_, hfirst⟩ hnone⟩
      obtain rfl := ha.unique hfirst
      rw [Nat.add_right_comm, Nat.add_sub_cancel]
      rfl
  | none =>
      exact ⟨fun a ha ↦ absurd ha (not_firstOccurrence_of_findFrom hfound), fun _ ↦ rfl⟩

/-- The functions on positions agree on what the positions of a text are.  Between two indices, given
or not, `byte` takes the bytes at the positions from the one up to the other, and `sub` the text that
these bytes denote, which has just these bytes when both cuts are between characters.  From an index
on `find` gives the first and the last position of the first occurrence of a text, or `nil` if there
is none. -/
theorem positions_exact (call : Caller) (session : Session) (args : Arguments) (s : String)
    (hs : args.arg 1 = .string s) :
    (∀ i j, args.opt .integer 2 1 = pure i → args.opt .integer 3 i = pure j →
      run call .byte args session =
        .ok ((bytesAt s i j).map fun b ↦ .number (Number.ofNat b.toNat)) session) ∧
    (∀ i j, args.opt .integer 2 1 = pure i → args.opt .integer 3 (-1) = pure j →
      run call .sub args session = .ok [.string (decode (bytesAt s i j))] session ∧
      (IsBoundary s (lower s.utf8ByteSize i - 1).toNat → IsBoundary s (upper s.utf8ByteSize j).toNat →
        bytes (decode (bytesAt s i j)) = bytesAt s i j)) ∧
    (∀ t i, args.arg 2 = .string t → args.opt .integer 3 1 = pure i →
      (∀ a, FirstOccurrence s t i a → run call .find args session =
        .ok [.number (Number.ofNat a), .number (Number.ofNat (a + t.utf8ByteSize - 1))] session) ∧
      ((¬∃ a, FirstOccurrence s t i a) → run call .find args session = .ok [.nil] session)) :=
  ⟨fun _ _ hi hj ↦ congrFun (byte_eq hs hi hj) session,
    fun _ _ hi hj ↦ ⟨congrFun (sub_eq hs hi hj) session, bytes_decode_bytesAt⟩,
    fun _ _ ht hi ↦ ⟨fun a ha ↦ congrFun ((find_eq hs ht hi).1 a ha) session,
      fun hnone ↦ congrFun ((find_eq hs ht hi).2 hnone) session⟩⟩

/-- The last two bytes of a text are those of its last character, which is found there and not
behind its first byte. -/
theorem positions_exact_accented :
    let session : Session := ⟨Machine.initial 200, World.initial⟩
    let call : Caller := fun _ _ _ ↦ pure []
    let args : Arguments := [.string "né", .number (Number.ofInt (-2)), .number (Number.ofInt (-1))]
    let sought (rest : Arguments) : Arguments := .string "né" :: .string "é" :: rest
    (args.opt .integer 2 1 = pure (-2) ∧ args.opt .integer 3 (-2) = pure (-1) ∧
      args.opt .integer 3 (-1) = pure (-1)) ∧
    run call .byte args session =
      .ok [.number (Number.ofNat 0xC3), .number (Number.ofNat 0xA9)] session ∧
    IsBoundary "né" 1 ∧ IsBoundary "né" 3 ∧
    run call .sub args session = .ok [.string "é"] session ∧ bytes "é" = bytesAt "né" (-2) (-1) ∧
    FirstOccurrence "né" "é" 1 2 ∧ run call .find (sought []) session =
      .ok [.number (Number.ofNat 2), .number (Number.ofNat 3)] session ∧
    (¬∃ a, FirstOccurrence "né" "é" (-1) a) ∧
    run call .find (sought [.number (Number.ofInt (-1))]) session = .ok [.nil] session := by
  intro session call args sought
  have hi : args.opt .integer 2 1 = pure (-2) :=
    congrArg pure (Number.toInt64_ofInt (z := -2) (by decide))
  have hj (args : Arguments) (default : ℤ) (h : args.arg 3 = .number (Number.ofInt (-1))) :
      args.opt .integer 3 default = pure (-1) := by
    rw [Arguments.opt, Arguments.check, h]
    exact congrArg pure (Number.toInt64_ofInt (z := -1) (by decide))
  have hbytes : bytesAt "né" (-2) (-1) = [0xC3, 0xA9] := by decide +kernel
  have hshown : decode (bytesAt "né" (-2) (-1)) = "é" := by decide +kernel
  have hstart : IsBoundary "né" 1 := ⟨"n", "é", by decide, by decide⟩
  have hstop : IsBoundary "né" 3 := ⟨"né", "", by decide, by decide⟩
  have hfirst : FirstOccurrence "né" "é" 1 2 :=
    firstOccurrence_of_findFrom (p := 1) (by decide +kernel)
  have hnone : ¬∃ a, FirstOccurrence "né" "é" (-1) a :=
    not_exists.2 fun _ ↦ not_firstOccurrence_of_findFrom (by decide +kernel)
  obtain ⟨hbyte, hsub, -⟩ := positions_exact call session args "né" rfl
  have hbyte := hbyte _ _ hi (hj _ _ rfl)
  obtain ⟨hresult, hexact⟩ := hsub _ _ hi (hj _ _ rfl)
  have hfind (rest : Arguments) := (positions_exact call session (sought rest) "né" rfl).2.2 "é"
  rw [hbytes] at hbyte
  rw [hshown] at hresult hexact
  exact ⟨⟨hi, hj _ _ rfl, hj _ _ rfl⟩, hbyte, hstart, hstop, hresult,
    hexact hstart hstop, hfirst, (hfind [] _ rfl rfl).1 2 hfirst, hnone,
    (hfind _ _ rfl (hj _ _ rfl)).2 hnone⟩

end LuaEmbed.Library.Strings
