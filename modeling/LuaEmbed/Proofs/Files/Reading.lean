import LuaEmbed.Proofs.Files.Handles
import LuaEmbed.Proofs.Lexing.Literals

/-!
# Reading texts

What requests for lines, numbers of bytes and everything that is left take of a text, and what they
answer.  No part of the text is lost, given twice or out of its order; the lines that an iteration
gives are those that the line feeds of the text separate.
-/

namespace LuaEmbed.Library.Files

open Supply (lineFeed)
open Supply.View (firstLine)
open Text (bytes decode)

variable {t u rest : String} {bs cs : List UInt8} {formats later : List ReadFormat}
  {format : ReadFormat}

/-! ## Lines as bytes -/

theorem firstLine_append_lineFeed (h : lineFeed ∉ bs) (cs : List UInt8) :
    firstLine (bs ++ lineFeed :: cs) = bs ++ [lineFeed] := by
  induction bs with
  | nil => rfl
  | cons b bs ih =>
      rw [List.mem_cons, not_or] at h
      rw [List.cons_append, firstLine, if_neg (mt beq_iff_eq.1 (Ne.symm h.1)), ih h.2]
      rfl

theorem firstLine_of_notMem (h : lineFeed ∉ bs) : firstLine bs = bs := by
  induction bs with
  | nil => rfl
  | cons b bs ih =>
      rw [List.mem_cons, not_or] at h
      rw [firstLine, if_neg (mt beq_iff_eq.1 (Ne.symm h.1)), ih h.2]

theorem dropLineFeed_append (bs : List UInt8) :
    ReadFormat.dropLineFeed (bs ++ [lineFeed]) = bs := by
  rw [ReadFormat.dropLineFeed, List.getLast?_concat, if_pos (by simp), List.dropLast_concat]

theorem dropLineFeed_of_notMem (h : lineFeed ∉ bs) : ReadFormat.dropLineFeed bs = bs := by
  rw [ReadFormat.dropLineFeed, if_neg]
  intro hlast
  exact h (List.mem_of_getLast? (beq_iff_eq.1 hlast))

/-- A text without line feeds has no byte of one. -/
theorem lineFeed_notMem_bytes (h : '\n' ∉ u.toList) : lineFeed ∉ bytes u :=
  fun hmem ↦ Text.ne_of_mem_bytes (d := '\n') (by decide) h hmem rfl

theorem bytes_line (u t : String) : bytes (u ++ "\n" ++ t) = bytes u ++ lineFeed :: bytes t := by
  rw [Text.bytes_append, Text.bytes_append, List.append_assoc]
  rfl

/-- Behind the bytes of a line are those of the text behind it. -/
theorem drop_bytes_line (u t : String) :
    (bytes u ++ lineFeed :: bytes t).drop (bytes u ++ [lineFeed]).length = bytes t := by
  rw [List.append_cons (bytes u) lineFeed (bytes t), List.drop_left]

theorem bytes_isEmpty (t : String) : (bytes t).isEmpty = (t == "") := by
  rw [Bool.eq_iff_iff, List.isEmpty_iff, beq_iff_eq, ← List.length_eq_zero_iff, Text.length_bytes,
    String.utf8ByteSize_eq_zero_iff]

/-! ## Requests -/

/-- What a request is answered with: text that was asked for by its length or as all that is left, a
line and whether a line feed ended it, or nothing. -/
inductive Answer where
  | text (u : String)
  | line (u : String) (ended : Bool)
  | nothing

/-- The value of an answer. -/
def Answer.value : Answer → Value
  | .text u | .line u _ => .string u
  | .nothing => .nil

/-- The text of an answer, with the line feed put back that ended it. -/
def Answer.restored : Answer → String
  | .text u | .line u false => u
  | .line u true => u ++ "\n"
  | .nothing => ""

/-- What a request takes off the front of a text, as it is answered, and the text behind that. -/
inductive Takes : ReadFormat → String → Answer → String → Prop
  | all (t : String) : Takes .all t (.text t) ""
  | line (u t : String) (hline : '\n' ∉ u.toList) : Takes .line (u ++ "\n" ++ t) (.line u true) t
  | lastLine (u : String) (hsome : u ≠ "") (hline : '\n' ∉ u.toList) :
      Takes .line u (.line u false) ""
  | count (n : Nat) (u t : String) (hsome : u ++ t ≠ "")
      (hsize : u.utf8ByteSize = min n (u ++ t).utf8ByteSize) :
      Takes (.count n) (u ++ t) (.text u) t

/-- The answers to the requests of one call, and the text behind what they take.  At the end of the
text a request is answered with nothing, unless it is for all that is left, and so the answers
end. -/
inductive Answers : List ReadFormat → String → List Answer → String → Prop
  | done (t : String) : Answers [] t [] t
  | ended (format : ReadFormat) (formats : List ReadFormat) (hall : format ≠ .all) :
      Answers (format :: formats) "" [.nothing] ""
  | cons {format : ReadFormat} {formats : List ReadFormat} {t t' rest : String} {a : Answer}
      {as : List Answer} (hfirst : Takes format t a t') (hrest : Answers formats t' as rest) :
      Answers (format :: formats) t (a :: as) rest

/-- The answers to one call after another. -/
inductive Replies : List (List ReadFormat) → String → List (List Answer) → String → Prop
  | done (t : String) : Replies [] t [] t
  | cons {formats : List ReadFormat} {calls : List (List ReadFormat)} {t t' rest : String}
      {as : List Answer} {replies : List (List Answer)} (hfirst : Answers formats t as t')
      (hrest : Replies calls t' replies rest) :
      Replies (formats :: calls) t (as :: replies) rest

/-! ## Nothing is lost -/

theorem Takes.restored_append {a : Answer} (h : Takes format t a rest) : a.restored ++ rest = t := by
  cases h with
  | all | lastLine => exact String.append_empty
  | line | count => rfl

/-- The answers to a call are the beginning of the text, with the line feeds put back that ended
lines. -/
theorem Answers.join_restored {as : List Answer} (h : Answers formats t as rest) :
    String.join (as.map Answer.restored) ++ rest = t := by
  induction h with
  | done => rfl
  | ended => rfl
  | cons hfirst _ ih =>
      rw [List.map_cons, String.join_cons, String.append_assoc, ih, hfirst.restored_append]

theorem Replies.join_restored {calls : List (List ReadFormat)} {replies : List (List Answer)}
    (h : Replies calls t replies rest) :
    String.join (replies.flatten.map Answer.restored) ++ rest = t := by
  induction h with
  | done => rfl
  | cons hfirst _ ih =>
      rw [List.flatten_cons, List.map_append, String.join_append, String.append_assoc, ih,
        hfirst.join_restored]

/-! ## Boundaries -/

/-- The text behind the first line. -/
def behindLine (t : String) : String :=
  .ofList ((t.toList.dropWhile (· != '\n')).drop 1)

/-- The requests are for lines, for all that is left, and for numbers of bytes that end between two
characters of the text or behind it. -/
def OnBoundaries : String → List ReadFormat → Prop
  | _, [] => True
  | t, .count n :: formats =>
    ∃ u rest, t = u ++ rest ∧ u.utf8ByteSize = min n t.utf8ByteSize ∧ OnBoundaries rest formats
  | t, .line :: formats => OnBoundaries (behindLine t) formats
  | _, .all :: formats => OnBoundaries "" formats
  | _, .number :: _ => False

theorem notMem_iff_all {cs : List Char} (h : '\n' ∉ cs) : ∀ c ∈ cs, (c != '\n') = true := by
  intro c hc
  rw [bne_iff_ne]
  rintro rfl
  exact h hc

theorem behindLine_line (h : '\n' ∉ u.toList) (t : String) : behindLine (u ++ "\n" ++ t) = t := by
  have hline : (u ++ "\n" ++ t).toList = u.toList ++ '\n' :: t.toList := by
    rw [String.toList_append, String.toList_append, List.append_assoc]
    rfl
  have hdrop : ('\n' :: t.toList).dropWhile (· != '\n') = '\n' :: t.toList := rfl
  rw [behindLine, hline, List.dropWhile_append_of_pos (notMem_iff_all h), hdrop, List.drop_one,
    List.tail_cons, String.ofList_toList]

theorem behindLine_of_notMem (h : '\n' ∉ u.toList) : behindLine u = "" := by
  have hdrop : (u.toList ++ []).dropWhile (· != '\n') = [] :=
    List.dropWhile_append_of_pos (notMem_iff_all h)
  rw [List.append_nil] at hdrop
  rw [behindLine, hdrop]
  rfl

/-- A text is empty, or has a first line that a line feed ends, or is one line that none ends. -/
theorem exists_line (t : String) :
    t = "" ∨ (∃ u rest, '\n' ∉ u.toList ∧ t = u ++ "\n" ++ rest) ∨ (t ≠ "" ∧ '\n' ∉ t.toList) := by
  by_cases hmem : '\n' ∈ t.toList
  · obtain ⟨cs, ds, ht, hcs⟩ := List.eq_append_cons_of_mem hmem
    refine .inr (.inl ⟨.ofList cs, .ofList ds, by rwa [String.toList_ofList], ?_⟩)
    rw [← String.toList_inj, ht, String.toList_append, String.toList_append, String.toList_ofList,
      String.toList_ofList, List.append_assoc, List.append_cancel_left_eq]
    rw [String.toList_ofList]
    rfl
  · exact (Decidable.em (t = "")).imp_right fun hne ↦ .inr ⟨hne, hmem⟩

/-! ## Answers of reads -/

/-- At the end of the text there is no answer, but to a request for everything. -/
theorem reads_end (hall : format ≠ .all) : format.reads (bytes "") = (.ok .endOfInput, bytes "") := by
  cases format with
  | all => exact absurd rfl hall
  | count n => exact congrArg (Prod.mk _) List.drop_nil
  | number | line => rfl

theorem take_drop_bytes {n : Nat} (h : u.utf8ByteSize = min n (u ++ rest).utf8ByteSize) :
    (bytes (u ++ rest)).take n = bytes u ∧ (bytes (u ++ rest)).drop n = bytes rest := by
  rw [String.utf8ByteSize_append] at h
  rw [Text.bytes_append]
  rcases Nat.lt_or_ge u.utf8ByteSize n with hlt | hge
  · obtain rfl : rest = "" := String.utf8ByteSize_eq_zero_iff.1 (by omega)
    have hlength : (bytes u ++ bytes "").length ≤ n := by
      rw [List.length_append, Text.length_bytes]
      exact Nat.le_of_lt hlt
    rw [List.take_of_length_le hlength, List.drop_of_length_le hlength]
    exact ⟨List.append_nil _, rfl⟩
  · have hn : n = (bytes u).length := by
      rw [Text.length_bytes]
      omega
    rw [hn, List.take_left, List.drop_left]
    exact ⟨rfl, rfl⟩

/-- A request that is on boundaries takes what it should of a text that is not at its end. -/
theorem exists_takes (h : OnBoundaries t (format :: formats)) (hsome : t ≠ "" ∨ format = .all) :
    ∃ u a rest, format.reads (bytes t) = (.ok (.text u), bytes rest) ∧ a.value = .string u ∧
      Takes format t a rest ∧ OnBoundaries rest formats := by
  have hempty (hne : t ≠ "") : (bytes t).isEmpty = false := by
    rw [bytes_isEmpty, beq_eq_false_iff_ne]
    exact hne
  cases format with
  | number => exact h.elim
  | all => exact ⟨t, .text t, "", by rw [ReadFormat.reads, Text.decode_bytes]; rfl, rfl, .all t, h⟩
  | count n =>
      obtain ⟨u, rest, rfl, hsize, hrest⟩ := h
      have hne : u ++ rest ≠ "" := hsome.resolve_right (by rintro ⟨⟩)
      obtain ⟨htake, hdrop⟩ := take_drop_bytes hsize
      refine ⟨u, .text u, rest, ?_, rfl, .count n u rest hne hsize, hrest⟩
      rw [ReadFormat.reads, htake, hdrop, hempty hne, Text.decode_bytes]
      rfl
  | line =>
      have hne : t ≠ "" := hsome.resolve_right (by rintro ⟨⟩)
      rcases exists_line t with hnone | ⟨u, rest, hline, rfl⟩ | ⟨-, hline⟩
      · exact absurd hnone hne
      · refine ⟨u, .line u true, rest, ?_, rfl, .line u rest hline, ?_⟩
        · rw [ReadFormat.reads, hempty hne, bytes_line,
            firstLine_append_lineFeed (lineFeed_notMem_bytes hline), dropLineFeed_append,
            Text.decode_bytes, drop_bytes_line]
          rfl
        · rw [← behindLine_line hline rest]
          exact h
      · refine ⟨t, .line t false, "", ?_, rfl, .lastLine t hne hline, ?_⟩
        · rw [ReadFormat.reads, hempty hne, firstLine_of_notMem (lineFeed_notMem_bytes hline),
            dropLineFeed_of_notMem (lineFeed_notMem_bytes hline), Text.decode_bytes,
            List.drop_length]
          rfl
        · rw [← behindLine_of_notMem hline]
          exact h

theorem OnBoundaries.tail_of_end (h : OnBoundaries "" (format :: formats)) :
    OnBoundaries "" formats := by
  cases format with
  | count n =>
      obtain ⟨u, rest, hnone, -, hrest⟩ := h
      rwa [(String.append_eq_empty_iff.1 hnone.symm).2] at hrest
  | number => exact h.elim
  | all | line => exact h

theorem OnBoundaries.of_append_end (h : OnBoundaries "" (formats ++ later)) :
    OnBoundaries "" later := by
  induction formats with
  | nil => exact h
  | cons format formats ih => exact ih h.tail_of_end

/-- The values of the answers to the requests of one call. -/
theorem exists_answers (h : OnBoundaries t (formats ++ later)) :
    ∃ as rest, readBytes formats (bytes t) = (as.map Answer.value, bytes rest) ∧
      Answers formats t as rest ∧ OnBoundaries rest later := by
  suffices hall : ∀ values, ∃ as rest,
      readAll (fun bs format ↦ format.reads bs) formats (bytes t) values =
        (values ++ as.map Answer.value, bytes rest) ∧
      Answers formats t as rest ∧ OnBoundaries rest later from hall []
  induction formats generalizing t with
  | nil => exact fun values ↦ ⟨[], t, by rw [List.map_nil, List.append_nil]; rfl, .done t, h⟩
  | cons format formats ih =>
      intro values
      by_cases hsome : t ≠ "" ∨ format = .all
      · obtain ⟨u, a, rest, hreads, hvalue, htakes, hrest⟩ := exists_takes h hsome
        obtain ⟨as, rest', hread, hanswers, hlater⟩ := ih hrest (values ++ [.string u])
        refine ⟨a :: as, rest', ?_, .cons htakes hanswers, hlater⟩
        rw [List.map_cons, hvalue, List.append_cons values, ← hread, readAll, hreads]
        rfl
      · obtain ⟨hnone, hall⟩ := not_or.1 hsome
        obtain rfl := Decidable.of_not_not hnone
        refine ⟨[.nothing], "", ?_, .ended format formats hall, ?_⟩
        · rw [readAll, reads_end hall]
          rfl
        · exact OnBoundaries.of_append_end (show OnBoundaries "" ((format :: formats) ++ later) from h)

namespace Reader

variable {x : Reader} {s : Session} {r : Ref} {calls : List Arguments}
  {requests : List (List ReadFormat)}

/-- Calls that read one after another, each of them at least what is on boundaries, get replies off
the front of the text, and what is behind these is left to read. -/
theorem Left.replies (h : x.Left (bytes t) s) (hcalls : calls.mapM formats? = some requests)
    (ht : OnBoundaries t requests.flatten) :
    ∃ replies rest s', calls.mapM x.read s = .ok (replies.map (·.map Answer.value)) s' ∧
      x.Left (bytes rest) s' ∧ Replies requests t replies rest := by
  induction calls generalizing t s requests with
  | nil =>
      obtain rfl := Option.some.inj hcalls
      exact ⟨[], t, s, rfl, h, .done t⟩
  | cons args calls ih =>
      rw [List.mapM_cons] at hcalls
      obtain ⟨formats, hargs, hcalls⟩ := Option.bind_eq_some_iff.1 hcalls
      obtain ⟨later, hlater, hcalls⟩ := Option.bind_eq_some_iff.1 hcalls
      obtain rfl := Option.some.inj hcalls
      obtain ⟨as, rest, hread, hanswers, hrest⟩ := exists_answers ht
      obtain ⟨s₁, hfirst, hleft⟩ := h.read hargs
      rw [hread] at hfirst hleft
      obtain ⟨replies, rest', s', hcalls, hleft', hreplies⟩ := ih hleft hlater hrest
      exact ⟨as :: replies, rest', s', Run.mapM_cons_of_ok hfirst hcalls, hleft',
        .cons hanswers hreplies⟩

end Reader

/-! ## Lines -/

/-- The lines of a text: what line feeds separate, but not what is behind the last of them if that is
nothing. -/
def lines (t : String) : List String :=
  let parts := t.toList.splitOn '\n'
  (if parts.getLast? = some [] then parts.dropLast else parts).map .ofList

theorem splitOn_line (h : '\n' ∉ u.toList) (t : String) :
    (u ++ "\n" ++ t).toList.splitOn '\n' = u.toList :: t.toList.splitOn '\n' := by
  have hline : (u ++ "\n" ++ t).toList = u.toList ++ '\n' :: t.toList := by
    rw [String.toList_append, String.toList_append, List.append_assoc]
    rfl
  have hmem (c : Char) (hc : c ∈ u.toList) : (c == '\n') = false :=
    beq_false_of_ne fun heq ↦ h (heq ▸ hc)
  rw [hline, List.splitOn, List.splitOnP_append_cons_of_forall_mem hmem _ (beq_self_eq_true _)]
  rfl

theorem lines_line (h : '\n' ∉ u.toList) (t : String) : lines (u ++ "\n" ++ t) = u :: lines t := by
  have hne : t.toList.splitOn '\n' ≠ [] := List.splitOnP_ne_nil _ _
  rw [lines, lines, splitOn_line h, List.getLast?_cons_of_ne_nil hne,
    List.dropLast_cons_of_ne_nil hne]
  split <;> rw [List.map_cons, String.ofList_toList]

theorem lines_lastLine (hsome : u ≠ "") (h : '\n' ∉ u.toList) : lines u = [u] := by
  have hne : u.toList ≠ [] := mt String.toList_eq_nil_iff.1 hsome
  rw [lines, List.splitOn_eq_singleton h,
    if_neg (by rwa [List.getLast?_singleton, Option.some_inj]), List.map_singleton,
    String.ofList_toList]

section Iterator

variable {s : Session} {r : Ref} {controls : List Arguments}

/-- Asking a handle for its lines gives it back, behind a function that gives one line at a time. -/
theorem Reader.Left.handleLines (h : (Reader.handle r).Left bs s) (args : Arguments) :
    ∃ k s', run .handleLines (.userdata r :: args) s = .ok [.function k, .userdata r] s' ∧
      s'.machine.functions[k]? = some (.native "lines_iter" (.file .linesStep)) ∧
      (Reader.handle r).Left bs s' := by
  obtain ⟨s', hnew, hk, hleft⟩ : ∃ s', Heap.newNative "lines_iter" (.file .linesStep) s =
      .ok (.function s.machine.functions.size) s' ∧
      s'.machine.functions[s.machine.functions.size]? =
        some (.native "lines_iter" (.file .linesStep)) ∧
      (Reader.handle r).Left bs s' := ⟨_, rfl, Array.getElem?_push_size, h⟩
  refine ⟨s.machine.functions.size, s', ?_, hk, hleft⟩
  have hlines (f : FileHandle) (hs : Holds s r f) (hopen : f ≠ .closed) :
      run .handleLines (.userdata r :: args) s =
        .ok [.function s.machine.functions.size, .userdata r] s' :=
    (Run.bind_of_ok (hs.checkHandle_apply hopen args)).trans (Run.bind_of_ok hnew)
  rcases h with ⟨f, content, hs, -⟩ | ⟨hs, -⟩
  · exact hlines _ hs nofun
  · exact hlines _ hs nofun

/-- The function that gives one line at a time reads one, whatever it is called with behind the
handle. -/
theorem Reader.Left.linesStep (h : (Reader.handle r).Left bs s) (args : Arguments) :
    ∃ s', run .linesStep (.userdata r :: args) s = .ok ((readBytes [.line] bs).1.take 1) s' ∧
      (Reader.handle r).Left (readBytes [.line] bs).2 s' := by
  obtain ⟨s', hread, hleft⟩ := h.read (rfl : formats? [] = some [.line])
  refine ⟨s', ?_, hleft⟩
  have hstep (f : FileHandle) (hs : Holds s r f) (hopen : f ≠ .closed) :
      readHandle r f [.line] s = .ok (readBytes [.line] bs).1 s' :=
    (Run.bind_of_ok (hs.checkHandle_apply hopen [])).symm.trans hread
  have hlines (f : FileHandle) (hs : Holds s r f) (hopen : f ≠ .closed) :
      run .linesStep (.userdata r :: args) s = .ok ((readBytes [.line] bs).1.take 1) s' :=
    (Run.bind_of_ok (hs.checkHandle_apply hopen args)).trans (Run.bind_of_ok (hstep f hs hopen))
  rcases h with ⟨f, content, hs, -⟩ | ⟨hs, -⟩
  · exact hlines _ hs nofun
  · exact hlines _ hs nofun

/-- At the end of the text there is no line, however often one is asked for. -/
theorem Reader.Left.linesStep_end (h : (Reader.handle r).Left (bytes "") s) (args : Arguments) :
    ∃ s', run .linesStep (.userdata r :: args) s = .ok [.nil] s' ∧
      (Reader.handle r).Left (bytes "") s' :=
  h.linesStep args

/-- The first line that is given is the first of the lines. -/
theorem Reader.Left.linesStep_line (h : (Reader.handle r).Left (bytes t) s) (hsome : t ≠ "")
    (args : Arguments) :
    ∃ u rest s', run .linesStep (.userdata r :: args) s = .ok [.string u] s' ∧
      lines t = u :: lines rest ∧ (Reader.handle r).Left (bytes rest) s' := by
  obtain ⟨s', hstep, hleft⟩ := h.linesStep args
  obtain ⟨u, a, rest, hreads, hvalue, htakes, -⟩ :=
    exists_takes (show OnBoundaries t [.line] from trivial) (.inl hsome)
  have hread : readBytes [.line] (bytes t) = ([.string u], bytes rest) := by
    rw [readBytes, readAll, hreads]
    rfl
  rw [hread] at hstep hleft
  refine ⟨u, rest, s', hstep, ?_, hleft⟩
  cases htakes with
  | line v _ hline =>
      obtain rfl := Value.string.inj hvalue
      exact lines_line hline rest
  | lastLine _ hsome hline =>
      obtain rfl := Value.string.inj hvalue
      exact lines_lastLine hsome hline

/-- An iteration gives the lines one by one, and nothing behind them. -/
theorem Reader.Left.iterate (h : (Reader.handle r).Left (bytes t) s)
    (hcontrols : controls.length = (lines t).length) :
    ∃ s', controls.mapM (fun args ↦ run .linesStep (.userdata r :: args)) s =
        .ok ((lines t).map fun u ↦ [.string u]) s' ∧
      (Reader.handle r).Left (bytes "") s' := by
  induction controls generalizing t s with
  | nil =>
      have hnone : t = "" := by
        refine Decidable.byContradiction fun hsome ↦ ?_
        obtain ⟨u, rest, -, -, hlines, -⟩ := h.linesStep_line hsome []
        rw [hlines] at hcontrols
        exact nomatch hcontrols
      subst hnone
      exact ⟨s, rfl, h⟩
  | cons args controls ih =>
      have hsome : t ≠ "" := by
        rintro rfl
        exact nomatch hcontrols
      obtain ⟨u, rest, s₁, hstep, hlines, hleft⟩ := h.linesStep_line hsome args
      rw [hlines, List.length_cons, List.length_cons, Nat.succ_inj] at hcontrols
      obtain ⟨s', hcalls, hleft'⟩ := ih hleft hcontrols
      rw [hlines]
      exact ⟨s', Run.mapM_cons_of_ok hstep hcalls, hleft'⟩

end Iterator

end LuaEmbed.Library.Files
