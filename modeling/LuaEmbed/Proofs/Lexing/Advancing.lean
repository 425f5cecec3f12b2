import Mathlib.Order.Nat
import LuaEmbed.Proofs.Lexing.Slices

/-!
# Reading on after faults

A lexer can be called on after a fault.  Every call but one that finds the end takes at least a byte
of the source, whether it yields a token or a fault, so a source of `n` bytes is at its end after at
most `n` calls, and stays there.  What a call hands on of the source lies between the bytes that were
read before it and those that are left after it.
-/

namespace LuaEmbed.Lexer

open Glyph (Laid)

variable {bs : List UInt8} {x : Lexer} {i m n : Nat}

/-! ## One call -/

/-- What is left to the lexer is an end of the source. -/
def Within (bs : List UInt8) (x : Lexer) : Prop := x.rest <:+ (Source.layOut bs).glyphs

/-- The number of bytes of a source that come before what is left to a lexer. -/
def offset (bs : List UInt8) (x : Lexer) : Nat := bs.length - (Source.raw x.rest).length

/-- What a lexeme is made of are the bytes from `start` up to `stop`, and these lie in the source. -/
structure CutFrom (bs : List UInt8) (start stop : Nat) (l : Lexeme) : Prop where
  start_lt : start < stop
  stop_le : stop ≤ bs.length
  text : l.text = Text.decode (bs.extract start stop)
  pieces : Repeats (bs.extract start stop) l.outcome

/-- What one call of a lexer does to its source. -/
structure Advances (bs : List UInt8) (x : Lexer) : Prop where
  /-- What is left to the lexer starts at its place in the source. -/
  left : Source.raw x.rest = bs.drop (offset bs x)
  /-- The place never goes back. -/
  offset_le : offset bs x ≤ offset bs x.next.2
  /-- The place never goes past the end. -/
  le_length : offset bs x.next.2 ≤ bs.length
  /-- At the end the place is the end. -/
  ended : x.next.1.outcome = .ok .endOfInput → offset bs x.next.2 = bs.length
  /-- A token or a fault takes at least one byte. -/
  offset_lt : x.next.1.outcome ≠ .ok .endOfInput → offset bs x < offset bs x.next.2
  /-- A token or a fault is cut out of what was taken, or it is about a comment without end, which
  leaves the text as it was. -/
  slice : x.next.1.outcome ≠ .ok .endOfInput →
    (x.next.1.outcome = .error (.longAtEnd .comment) ∧ x.next.1.text = x.text) ∨
      ∃ start, offset bs x ≤ start ∧ CutFrom bs start (offset bs x.next.2) x.next.1

theorem within_ofBytes (bs : List UInt8) : Within bs (ofBytes bs) := rest_ofBytes_suffix bs

theorem rest_of_ended (h : x.next.1.outcome = .ok .endOfInput) : x.next.2.rest = [] := by
  rcases next_cases x with ⟨_, -, hnext⟩ | ⟨-, hnext⟩ | ⟨_, g, taken, rest, -, -, -, hnext⟩
  · rw [hnext]
  · rw [hnext]
  · rw [hnext] at h
    exact absurd h (scan_ne_endOfInput g (taken ++ rest))

theorem offset_of_rest_nil (h : x.rest = []) : offset bs x = bs.length := by
  rw [offset, h]
  rfl

namespace Within

theorem next (h : Within bs x) : Within bs x.next.2 := by
  rcases next_cases x with ⟨_, -, hnext⟩ | ⟨-, hnext⟩ | ⟨gap, g, taken, rest, hrest, -, -, hnext⟩
  · rw [hnext]
    exact List.nil_suffix
  · rw [hnext]
    exact List.nil_suffix
  · rw [hnext]
    refine .trans ?_ h
    rw [hrest, ← List.cons_append, ← List.append_assoc]
    exact List.suffix_append _ _

theorem laid (h : Within bs x) : Laid x.rest := by
  have hwhole : Laid (Source.layOut bs).glyphs := Source.laid_layOut bs
  exact hwhole.of_infix h.isInfix

/-- The source comes apart at the place of the lexer. -/
theorem exists_front (h : Within bs x) :
    ∃ front, bs = front ++ Source.raw x.rest ∧ offset bs x = front.length := by
  obtain ⟨before, hbefore⟩ := h
  have hsource : bs = Source.raw before ++ Source.raw x.rest := by
    rw [← Source.raw_append, hbefore, Source.raw_layOut]
  refine ⟨Source.raw before, hsource, ?_⟩
  rw [offset, ← List.length_append.symm.trans (congrArg List.length hsource).symm]
  omega

/-- A call that finds a token or a fault takes at least one byte, and what it hands on are bytes that
it takes. -/
theorem progress (h : Within bs x) (hgoes : x.next.1.outcome ≠ .ok .endOfInput) :
    offset bs x < offset bs x.next.2 ∧
      ((x.next.1.outcome = .error (.longAtEnd .comment) ∧ x.next.1.text = x.text) ∨
        ∃ start, offset bs x ≤ start ∧ CutFrom bs start (offset bs x.next.2) x.next.1) := by
  obtain ⟨front, hsource, hoffset⟩ := h.exists_front
  have hlength := congrArg List.length hsource
  have hwritten := h.laid.written
  rw [List.length_append] at hlength
  rcases next_cases x with
    ⟨place, hskip, hnext⟩ | ⟨-, hnext⟩ | ⟨gap, g, taken, rest, hrest, -, hsize, hnext⟩
  · have hsome : 0 < x.rest.length := by
      refine List.length_pos_iff.2 fun hnil ↦ ?_
      rw [hnil, skip_eq_skipSolid] at hskip
      cases hskip
    have hbytes := Source.length_le_raw hwritten
    have hend : offset bs x.next.2 = bs.length := offset_of_rest_nil (by rw [hnext])
    exact ⟨by omega, .inl (by rw [hnext]; exact ⟨rfl, rfl⟩)⟩
  · rw [hnext] at hgoes
    exact absurd rfl hgoes
  · have hsplit : Source.raw x.rest =
        Source.raw gap ++ (Source.raw (g :: taken) ++ Source.raw rest) := by
      rw [hrest, ← List.cons_append, Source.raw_append, Source.raw_append]
    have hkept : ∀ g' ∈ g :: (taken ++ rest), g'.Written := fun g' hg' ↦
      hwritten g' (hrest ▸ List.mem_append_right _ hg')
    have htaken : (g :: taken).length ≤ (Source.raw (g :: taken)).length :=
      Source.length_le_raw fun g' hg' ↦ hkept g' (List.mem_append_left rest hg')
    have hplace : offset bs x.next.2 =
        offset bs x + (Source.raw gap).length + (Source.raw (g :: taken)).length := by
      have hleft : x.next.2.rest = rest := by rw [hnext]
      rw [hsplit, List.length_append, List.length_append] at hlength
      rw [offset, hleft, hoffset]
      omega
    have hslice : bs.extract (offset bs x + (Source.raw gap).length) (offset bs x.next.2) =
        Source.raw (g :: taken) := by
      rw [hplace, hoffset, hsource, hsplit, ← List.append_assoc, ← List.length_append,
        List.extract_eq_take_drop, List.drop_left, Nat.add_sub_cancel_left, List.take_left]
    have hpieces := repeatsTaken_scan hkept
    rw [Scan.RepeatsTaken, hsize, List.take_succ_cons, List.take_left, ← hslice] at hpieces
    rw [List.length_cons] at htaken
    refine ⟨by omega, .inr ⟨offset bs x + (Source.raw gap).length, Nat.le_add_right _ _, by omega,
      Nat.sub_le _ _, ?_, ?_⟩⟩
    · rw [hslice, hnext]
      rfl
    · rw [hnext] at hpieces ⊢
      exact hpieces

theorem advances (h : Within bs x) : Advances bs x := by
  obtain ⟨front, hsource, hoffset⟩ := h.exists_front
  have hended (hend : x.next.1.outcome = .ok .endOfInput) : offset bs x.next.2 = bs.length :=
    offset_of_rest_nil (rest_of_ended hend)
  refine ⟨?_, ?_, Nat.sub_le _ _, hended, fun hgoes ↦ (h.progress hgoes).1,
    fun hgoes ↦ (h.progress hgoes).2⟩
  · rw [hoffset]
    conv_rhs => rw [hsource]
    exact List.drop_left.symm
  · by_cases hend : x.next.1.outcome = .ok .endOfInput
    · exact (Nat.sub_le _ _).trans_eq (hended hend).symm
    · exact Nat.le_of_lt (h.progress hend).1

end Within

/-! ## All calls -/

/-- The lexer after a number of calls, whatever they yield. -/
def after (x : Lexer) : Nat → Lexer
  | 0 => x
  | i + 1 => (x.after i).next.2

/-- What the call after `i` others yields. -/
def call (x : Lexer) (i : Nat) : Lexeme := (x.after i).next.1

theorem within_after (bs : List UInt8) (i : Nat) : Within bs ((ofBytes bs).after i) := by
  induction i with
  | zero => exact within_ofBytes bs
  | succ i ih => exact ih.next

/-- At the end every call finds the end. -/
theorem call_succ_of_ended (h : (x.call i).outcome = .ok .endOfInput) :
    (x.call (i + 1)).outcome = .ok .endOfInput := by
  have hrest : (x.after (i + 1)).rest = [] := rest_of_ended h
  have hskip : skip (x.after (i + 1)).rest = .ok [] := by
    rw [hrest, skip_eq_skipSolid]
    rfl
  unfold call next
  rw [hskip]

/-- Places that move on until the end, and only so far, come to the end for good. -/
theorem exists_end (place : Nat → Nat) {ended : Nat → Prop} (hbound : ∀ i, place i ≤ n)
    (hstep : ∀ i, ¬ended i → place i < place (i + 1)) (hstays : ∀ i, ended i → ended (i + 1)) :
    ∃ m ≤ n, ∀ i, ended i ↔ m ≤ i := by
  classical
  have hmoves (i : Nat) (h : ∀ j < i, ¬ended j) : i ≤ place i := by
    induction i with
    | zero => exact Nat.zero_le _
    | succ i ih =>
        have hbefore := ih fun j hj ↦ h j (Nat.lt_succ_of_lt hj)
        exact Nat.lt_of_le_of_lt hbefore (hstep i (h i (Nat.lt_succ_self i)))
  have hends : ∃ i, ended i := by
    by_contra hnever
    have hpast := hmoves (n + 1) fun j _ hj ↦ hnever ⟨j, hj⟩
    exact absurd (hpast.trans (hbound (n + 1))) (Nat.not_succ_le_self n)
  refine ⟨Nat.find hends, ?_, fun i ↦ ⟨fun hi ↦ Nat.find_min' hends hi, fun hi ↦ ?_⟩⟩
  · exact (hmoves _ fun j hj ↦ Nat.find_min hends hj).trans (hbound _)
  · induction i, hi using Nat.le_induction with
    | base => exact Nat.find_spec hends
    | succ i _ ih => exact hstays i ih

/-- A lexer that is called again and again, past all faults, finds the end of a source after at most
as many calls as the source has bytes, and from then on.  Each call moves its place in the source on,
within the source, and by at least one byte unless it finds the end; and all that it hands on lies
between the places before and after it. -/
theorem calls_end (bs : List UInt8) :
    (∃ m ≤ bs.length, ∀ i, ((ofBytes bs).call i).outcome = .ok .endOfInput ↔ m ≤ i) ∧
      ∀ i, Advances bs ((ofBytes bs).after i) := by
  have hadvances (i : Nat) : Advances bs ((ofBytes bs).after i) := (within_after bs i).advances
  exact ⟨exists_end (fun i ↦ offset bs ((ofBytes bs).after i)) (fun i ↦ Nat.sub_le _ _)
    (fun i hi ↦ (hadvances i).offset_lt hi) fun i ↦ call_succ_of_ended, hadvances⟩

-- A bad escape, the name that its letter is read as, a bad number, a stray byte, and the end.
example : (List.range 6).map (fun i ↦ ((ofBytes (Text.bytes "'\\q 3x ~")).call i).outcome.isOk) =
    [false, true, false, false, true, true] := by decide +kernel

end LuaEmbed.Lexer
