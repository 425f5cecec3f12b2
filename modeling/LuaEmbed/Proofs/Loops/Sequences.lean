import LuaEmbed.Proofs.Loops.Turns
import LuaEmbed.Proofs.Numbers.Integers
import LuaEmbed.Proofs.Numbers.Overflow
import LuaEmbed.Proofs.Runs.Comparison
import LuaEmbed.Proofs.Runs.Protection
import LuaEmbed.Proofs.Scoping.Lexical
import LuaEmbed.Proofs.Tables.Shifting

/-!
# Walks along the sequence part of a table

A loop over `ipairs`, the length of a table and `concat` each walk along a table on their own: the
loop asks the iterator for one index after the other, the length counts up to a border, and
`concat` goes up to that border.  All of them read what the table itself holds, and they end at the
same place with the same values.
-/

namespace LuaEmbed

open Library

variable {n : ℕ} {r f g : Ref} {s s' : Session} {t : Table}

@[simp] theorem Table.getInt_empty (i : ℤ) : Table.empty.getInt i = .nil :=
  getKey_of_index_none (by simp [empty])

/-! ## Sessions that walks are made in -/

/-- The table at a place holds under each integer what a table does. -/
def Session.Lists (s : Session) (r : Ref) (t : Table) : Prop :=
  ∀ i : ℤ, (s.tableAt r).getInt i = t.getInt i

namespace Session.Lists

theorem slice_eq (h : s.Lists r t) (i : ℤ) (n : ℕ) : (s.tableAt r).slice i n = t.slice i n :=
  List.map_congr_left fun k _ ↦ h (i + k)

theorem length_eq (h : s.Lists r t) (hsize : t.toList.length < 2 ^ 53) :
    (s.tableAt r).length = t.length := by
  refine Table.length_eq (Table.length_lt hsize).le (fun i hi ↦ ?_) ?_
  · rw [h]
    exact Table.getInt_ne_nil_of_lt_length hi
  · rw [h]
    exact Table.getInt_length hsize

end Session.Lists

/-- The session with a function more, the iterator of `ipairs`. -/
def Session.withIterator (s : Session) : Session :=
  { s with
    machine := { s.machine with
      functions := s.machine.functions.push (.native "ipairs_aux" (.base .ipairsStep)) } }

/-- The iterator of `ipairs` can be called. -/
structure Session.Iterates (s : Session) (f : Ref) : Prop where
  function : ∃ called, s.machine.functions[f]? = some (.native called (.base .ipairsStep))
  room : s.machine.frames.length < s.machine.callLimit

theorem Run.Regular.iterates {α : Type} {m : Bool} {x : Run α} (hx : x.Regular m)
    (h : s.Iterates f) : (x.after s).Iterates f := by
  obtain ⟨⟨called, hf⟩, hroom⟩ := h
  refine ⟨⟨called, ?_⟩, ?_⟩
  · obtain ⟨hlt, hf⟩ := Array.getElem?_eq_some_iff.1 hf
    rw [← Array.getElem?_toList, ← hf, ← Array.getElem_toList]
    exact List.prefix_iff_getElem?.1 (hx.keeps_functions s) f hlt
  · have hdepth := hx.sameDepth s
    rw [hdepth.length_eq, hdepth.callLimit_eq]
    exact hroom

/-! ## The iterator -/

namespace Library.Base

/-- What a step of the iterator gives: the next index with what the table itself holds there, or
`nil`. -/
def stepResults (t : Table) (n : ℕ) : List Value :=
  if (t.getInt (n + 1)).isNil then [.nil] else [.number (Number.ofInt (n + 1)), t.getInt (n + 1)]

theorem ipairsStep_eq (hn : n < 2 ^ 53) (r : Ref) (s : Session) :
    ipairsStep [.table r, .number (Number.ofInt n)] s = .ok (stepResults (s.tableAt r) n) s := by
  have hindex : Number.wrap64 (Number.toInt64 (Number.ofInt n) + 1) = n + 1 := by
    rw [Number.toInt64_ofInt (by omega), Number.wrap64_of_mem] <;>
      simp only [Number.int64Min, Number.int64Max] <;> omega
  rw [stepResults, ← hindex]
  rfl

end Library.Base

/-! ## Concatenation -/

/-- The value is a string or a number. -/
def Value.IsTextual (v : Value) : Prop := v.kind = .string ∨ v.kind = .number

theorem Value.isTextual_iff {v : Value} : v.IsTextual ↔ ∃ x, v.toText? = some x := by
  cases v <;> simp [IsTextual, kind, toText?]

/-- The texts of values, in order. -/
def Value.Texts (vs : List Value) (texts : List String) : Prop :=
  vs.map toText? = texts.map some

namespace Library.Sequence

variable {separator : String} {args : Arguments}

/-- A separator stands after each text but the last one. -/
theorem intercalate_cons (separator x : String) (texts : List String) :
    separator.intercalate (x :: texts) =
      x ++ (if texts = [] then "" else separator) ++ separator.intercalate texts := by
  cases texts with
  | nil => simp
  | cons y texts => rw [String.intercalate_cons_cons, if_neg (List.cons_ne_nil y texts)]

/-- Joining goes on as long as there are texts, and stops at the first index without one. -/
theorem joinFrom_spec {k count : ℕ} {last : ℤ} (hlast : last < 2 ^ 53)
    (hcount : k + count = last + 1) (joined : String) :
    (∃ texts, Value.Texts (t.slice k count) texts ∧
      joinFrom t separator last count k joined = .ok (joined ++ separator.intercalate texts)) ∨
    ∃ j, k ≤ j ∧ j < k + count ∧ (∀ i, k ≤ i → i < j → (t.getInt i).IsTextual) ∧
      ¬(t.getInt j).IsTextual ∧ joinFrom t separator last count k joined = .error j := by
  induction count generalizing k joined with
  | zero => exact .inl ⟨[], rfl, by simp [joinFrom]⟩
  | succ count ih =>
      have hrange : Number.int64Min ≤ (k : ℤ) + 1 ∧ (k : ℤ) + 1 ≤ Number.int64Max := by
        simp only [Number.int64Min, Number.int64Max]
        omega
      have hnext : Number.wrap64 ((k : ℤ) + 1) = (k + 1 : ℕ) :=
        Number.wrap64_of_mem hrange.1 hrange.2
      rw [joinFrom, Checked.slice_succ, hnext]
      cases htext : (t.getInt k).toText? with
      | none =>
          have hvalue : ¬(t.getInt k).IsTextual := by simp [Value.isTextual_iff, htext]
          exact .inr ⟨k, Nat.le_refl k, by omega, fun i hi hik ↦ by omega, hvalue, rfl⟩
      | some x =>
          have hvalue : (t.getInt k).IsTextual := Value.isTextual_iff.2 ⟨x, htext⟩
          rcases ih (k := k + 1) (by omega)
            (joined ++ x ++ if (k : ℤ) < last then separator else "")
            with ⟨texts, htexts, hjoin⟩ | ⟨j, hkj, hj, hbefore, hnone, hjoin⟩
          · have hcount : texts.length = count := by
              simpa using congrArg List.length htexts.symm
            have hmore : (k : ℤ) < last ↔ ¬texts = [] := by
              rw [← List.length_eq_zero_iff, hcount]
              omega
            refine .inl ⟨x :: texts, ?_, ?_⟩
            · exact congrArg₂ List.cons htext htexts
            · refine hjoin.trans ?_
              simp only [intercalate_cons, hmore, ite_not, String.append_assoc]
          · refine .inr ⟨j, by omega, by omega, fun i hi hij ↦ ?_, hnone, hjoin⟩
            rcases hi.eq_or_lt with rfl | hlt
            · exact hvalue
            · exact hbefore i hlt hij

section Concat

variable (ht : s.Lists r t) (hsize : t.toList.length < 2 ^ 53) (htable : args.arg 1 = .table r)
  (hseparator : args.opt .string 2 "" = pure separator) (hfirst : args.arg 3 = .nil)
  (hlast : args.arg 4 = .nil)

include ht hsize htable hseparator hfirst hlast

/-- Without bounds, `concat` joins the sequence part. -/
theorem concat_eq :
    concat args s =
      (match joinFrom (s.tableAt r) separator t.length t.length (1 : ℕ) "" with
        | .ok x => return [.string x]
        | .error k => Report.raise .runtime (.notConcatenable k) : Run (List Value)) s := by
  have hr : args.check .table 1 = pure r := Arguments.check_table htable
  have hi : args.opt .integer 3 1 = pure 1 := if_pos (by rw [hfirst]; rfl)
  have hj (n : ℤ) : args.opt .integer 4 n = pure n := if_pos (by rw [hlast]; rfl)
  have hlength : Heap.length r s = .ok t.length s :=
    congrArg (EStateM.Result.ok · s) (ht.length_eq hsize)
  have hcount : joinCount 1 t.length = t.length := by
    have hlt := Table.length_lt hsize
    have hmax : (t.length : ℤ) ≠ Number.int64Max := by
      rw [Number.int64Max]
      omega
    simp [joinCount, hmax]
  rw [concat, hr, hseparator, hi, pure_bind, pure_bind, pure_bind]
  refine (Run.bind_of_ok hlength).trans ?_
  rw [hj, pure_bind, hcount]
  rfl

/-- It gives the texts of the sequence part, or fails at the least index without one. -/
theorem concat_sequence :
    (∃ texts, Value.Texts (t.slice 1 t.length) texts ∧
      concat args s = .ok [.string (separator.intercalate texts)] s) ∨
    ∃ k < t.length, (∀ j < k, (t.getInt (j + 1)).IsTextual) ∧ ¬(t.getInt (k + 1)).IsTextual ∧
      concat args s = Report.raise .runtime (.notConcatenable (k + 1)) s := by
  rw [concat_eq ht hsize htable hseparator hfirst hlast]
  have hspec := @joinFrom_spec (s.tableAt r) separator 1 t.length t.length
    (Int.ofNat_lt.2 (Table.length_lt hsize)) (Int.add_comm ..) ""
  rcases hspec with
    ⟨texts, htexts, hok⟩ | ⟨j, hj, hjn, hbefore, hnone, herror⟩
  · refine .inl ⟨texts, ht.slice_eq 1 t.length ▸ htexts, ?_⟩
    rw [hok, String.empty_append]
    rfl
  · obtain ⟨k, rfl⟩ := Nat.exists_eq_add_of_le' hj
    refine .inr ⟨k, by omega, fun i hi ↦ ?_, ht (k + 1) ▸ hnone, ?_⟩
    · exact ht (i + 1) ▸ hbefore (i + 1) (by omega) (by omega)
    · rw [herror]
      rfl

end Concat

end Library.Sequence

namespace Evaluation

variable (a : Activation) (scope : Scope) {i v : String} {block : Block}

/-- A call of `ipairs` creates an iterator, which is to begin before the first index. -/
theorem call_ipairs {called : String}
    (hg : s.machine.functions[g]? = some (.native called (.base .ipairs)))
    (hroom : s.machine.frames.length < s.machine.callLimit) (fuel : ℕ) (w : Value)
    (name : Option String) :
    call (fuel + 1) (.function g) [w] name s =
      .ok [.function s.machine.functions.size, w, .number (Number.ofInt 0)] s.withIterator := by
  refine (Program.call_native hg fuel [w] name).trans ?_
  rw [Run.activate, if_neg (Nat.not_le_of_lt hroom)]
  rfl

/-- A call of the iterator takes its step. -/
theorem call_iterator (hs : s.Iterates f) (fuel : ℕ) (hn : n < 2 ^ 53) (r : Ref) :
    call (fuel + 1) (.function f) [.table r, .number (Number.ofInt n)] none s =
      .ok (Base.stepResults (s.tableAt r) n) s := by
  obtain ⟨⟨called, hf⟩, hroom⟩ := hs
  have hstep : Native.run fuel (Program.call fuel) (.base .ipairsStep) _
    (s.mapFrames (.native none :: ·)) = _ := Base.ipairsStep_eq hn r _
  refine (Program.call_native hf fuel _ none).trans ?_
  rw [Run.activate, if_neg (Nat.not_le_of_lt hroom), hstep]
  rfl

/-- The variables of a turn. -/
def pairGroup (s : Session) (i v : String) : Group :=
  [(i, s.machine.cells.size), (v, s.machine.cells.size + 1)]

/-- A turn runs the block with the next index and what the table itself holds there, and if that is
nothing, the loop ends. -/
theorem iteratorLoop_pairs (hs : s.Iterates f) (fuel : ℕ) (hn : n < 2 ^ 53) (r : Ref) :
    iteratorLoop a scope [i, v] (.function f) (.table r) block (fuel + 1)
        (.number (Number.ofInt n)) s =
      if ((s.tableAt r).getInt (n + 1)).isNil then .ok (.done (.next scope)) s
      else blockTurn a scope (fuel + 1) (pairGroup s i v) block (.number (Number.ofInt (n + 1)))
        (s.withCells [.number (Number.ofInt (n + 1)), (s.tableAt r).getInt (n + 1)]) := by
  rw [iteratorLoop_eq]
  have hcallable : checkCallable none (.function f) s = .ok () s := rfl
  refine (Run.bind_of_ok hcallable).trans ?_
  refine (Run.bind_of_ok (call_iterator hs fuel hn r)).trans ?_
  unfold Base.stepResults
  split <;> rfl

/-! ## The loop -/

section Loop

variable {fuel : ℕ} {s₁ s₂ : Session}

/-- The turns of a loop over the pairs of a table. -/
abbrev pairsLoop (i v : String) (block : Block) (f r : Ref) : Loop Value :=
  iteratorLoop a scope [i, v] (.function f) (.table r) block

/-- The block of a loop over the pairs of a table neither leaves the loop nor fails, and does not
assign to the table, in any turn that begins before the sequence part ends. -/
def Spares (i v : String) (block : Block) (f r : Ref) (t : Table) (fuel : ℕ) (s : Session) : Prop :=
  ∀ k bound x s₁,
    (pairsLoop a scope i v block f r).Begins fuel (.number (Number.ofInt 0)) s k (bound + 1) x s₁ →
    k < t.length →
    ∃ inner s₂, runBlock bound a (pairGroup s₁ i v :: scope) block
        (s₁.withCells [.number (Number.ofInt (k + 1)), t.getInt (k + 1)]) = .ok (.next inner) s₂ ∧
      s₂.Lists r (s₁.tableAt r)

/-- How a turn of a loop over the pairs of a table begins, after so many others. -/
structure TurnBegins (loop : Loop Value) (fuel : ℕ) (s : Session) (f r : Ref) (t : Table) (k : ℕ)
    (s₁ : Session) : Prop where
  begins : loop.Begins fuel (.number (Number.ofInt 0)) s k (fuel - k) (.number (Number.ofInt k)) s₁
  iterates : s₁.Iterates f
  lists : s₁.Lists r t

variable (hsize : t.toList.length < 2 ^ 53) (hfuel : t.length + 1 < fuel)

include hsize

theorem pairsLoop_turn {k : ℕ} (hs : s.Iterates f) (ht : s.Lists r t) (hk : k ≤ t.length)
    (bound : ℕ) :
    pairsLoop a scope i v block f r (bound + 1) (.number (Number.ofInt k)) s =
      if k < t.length then
        blockTurn a scope (bound + 1) (pairGroup s i v) block (.number (Number.ofInt (k + 1)))
          (s.withCells [.number (Number.ofInt (k + 1)), t.getInt (k + 1)])
      else .ok (.done (.next scope)) s := by
  have hlength := Table.length_lt hsize
  rw [pairsLoop, iteratorLoop_pairs a scope hs bound (by omega) r, ht]
  rcases hk.lt_or_eq with hlt | rfl
  · have hvalue : ¬(t.getInt (k + 1)).isNil = true := fun hnil ↦
      Table.getInt_ne_nil_of_lt_length hlt (Value.isNil_iff.1 hnil)
    rw [if_neg hvalue, if_pos hlt]
  · have hnil : (t.getInt (t.length + 1)).isNil = true :=
      Value.isNil_iff.2 (Table.getInt_length hsize)
    rw [if_pos hnil, if_neg (Nat.lt_irrefl _)]

include hfuel

/-- The turns begin from one index after the other, and with the table as it was. -/
theorem pairsLoop_begins (hs : s.Iterates f) (ht : s.Lists r t)
    (hbody : Spares a scope i v block f r t fuel s) {k : ℕ} (hk : k ≤ t.length) :
    ∃ s₁, TurnBegins (pairsLoop a scope i v block f r) fuel s f r t k s₁ := by
  induction k with
  | zero => exact ⟨s, .first, hs, ht⟩
  | succ k ih =>
      obtain ⟨s₁, hbegins, hs₁, ht₁⟩ := ih (Nat.le_of_succ_le hk)
      obtain ⟨bound, hbound⟩ : ∃ bound, fuel - k = bound + 1 + 1 := ⟨fuel - k - 2, by omega⟩
      rw [hbound] at hbegins
      obtain ⟨inner, s₂, hblock, ht₂⟩ := hbody _ _ _ _ hbegins hk
      have hturn : pairsLoop a scope i v block f r (bound + 1) (.number (Number.ofInt k)) s₁ =
          .ok (.again (.number (Number.ofInt (k + 1)))) s₂ := by
        rw [pairsLoop_turn a scope hsize hs₁ ht₁ (Nat.le_of_succ_le hk),
          if_pos (Nat.lt_of_succ_le hk)]
        exact Run.bind_of_ok hblock
      have hs₂ := (iteratorLoop_regular a scope (bound + 1) [i, v] (.function f) (.table r) block
        (.number (Number.ofInt k))).iterates hs₁
      rw [Run.after_of_ok hturn] at hs₂
      refine ⟨s₂, ?_, hs₂, fun j ↦ (ht₂ j).trans (ht₁ j)⟩
      have hnext := hbegins.again hturn
      rwa [show bound + 1 = fuel - (k + 1) by omega] at hnext

/-- The loop ends in the turn after those of the sequence part. -/
theorem pairsLoop_ends (hs : s.Iterates f) (ht : s.Lists r t)
    (hbody : Spares a scope i v block f r t fuel s) :
    ∃ s₁, TurnBegins (pairsLoop a scope i v block f r) fuel s f r t t.length s₁ ∧
      pairsLoop a scope i v block f r (fuel - t.length - 1) (.number (Number.ofInt t.length)) s₁ =
        .ok (.done (.next scope)) s₁ := by
  obtain ⟨s₁, h⟩ := pairsLoop_begins a scope hsize hfuel hs ht hbody (Nat.le_refl _)
  obtain ⟨bound, hbound⟩ : ∃ bound, fuel - t.length - 1 = bound + 1 :=
    ⟨fuel - t.length - 2, by omega⟩
  refine ⟨s₁, h, ?_⟩
  rw [hbound, pairsLoop_turn a scope hsize h.iterates h.lists (Nat.le_refl _),
    if_neg (Nat.lt_irrefl _)]

theorem turns_le_length (hs : s.Iterates f) (ht : s.Lists r t)
    (hbody : Spares a scope i v block f r t fuel s) {k bound : ℕ} {x : Value}
    (h : (pairsLoop a scope i v block f r).Begins fuel (.number (Number.ofInt 0)) s k bound x s₁) :
    k ≤ t.length := by
  induction h with
  | first => exact Nat.zero_le _
  | again h hturn ih =>
      refine Nat.lt_of_le_of_ne ih ?_
      rintro rfl
      obtain ⟨s₂, hlast, hdone⟩ := pairsLoop_ends a scope hsize hfuel hs ht hbody
      obtain ⟨hbound, rfl, rfl⟩ := h.unique hlast.begins
      rw [← hbound, Nat.add_sub_cancel, hturn] at hdone
      cases hdone

theorem pairsLoop_run (hs : s.Iterates f) (ht : s.Lists r t)
    (hbody : Spares a scope i v block f r t fuel s) :
    ∃ s₁, TurnBegins (pairsLoop a scope i v block f r) fuel s f r t t.length s₁ ∧
      Loop.run (pairsLoop a scope i v block f r) fuel (.number (Number.ofInt 0)) s =
        .ok (.next scope) s₁ := by
  obtain ⟨s₁, hlast, hdone⟩ := pairsLoop_ends a scope hsize hfuel hs ht hbody
  refine ⟨s₁, hlast, hlast.begins.run_eq.trans ?_⟩
  rw [show fuel - t.length = fuel - t.length - 1 + 1 by omega]
  exact Run.bind_of_ok hdone

end Loop

/-- What a loop in a line does first: it evaluates what it calls for its iterator. -/
def evalCallee (fuel : ℕ) (a : Activation) (scope : Scope) (line : ℕ) (callee : Expr) :
    Run Value := do
  if 0 < line then goToLine line
  eval fuel a scope callee

/-- Then it evaluates the arguments of that call and goes to the line of the call. -/
def evalArguments (fuel : ℕ) (a : Activation) (scope : Scope) (line : ℕ) (args : List Expr) :
    Run (List Value) := do
  let vs ← evalList fuel a scope args
  goToLine line
  return vs

theorem evalCallee_regular (fuel line : ℕ) (callee : Expr) :
    (evalCallee fuel a scope line callee).Regular true := by
  unfold evalCallee
  split
  · exact (Run.Regular.goToLine line).bind fun _ ↦ regular_eval a scope fuel callee
  · exact regular_eval a scope fuel callee

theorem evalArguments_regular (fuel line : ℕ) (args : List Expr) :
    (evalArguments fuel a scope line args).Regular true := by
  have hlist : (evalList fuel a scope args).Regular true :=
    ((evaluator_regular fuel).evalList () (v := true) a scope False.elim).1
  exact hlist.bind fun _ ↦ (Run.Regular.goToLine line).bind fun _ ↦ .pure _

/-- A loop comes to its turns by a call of `ipairs`. -/
theorem runStat_pairs {fuel line callLine : ℕ} {callee : Expr} {args : List Expr} {called : String}
    {s₁ s₂ : Session}
    (hcallee : evalCallee (fuel + 1) a scope line callee s = .ok (.function g) s₁)
    (hargs : evalArguments (fuel + 1) a scope callLine args s₁ = .ok [.table r] s₂)
    (hg : s₂.machine.functions[g]? = some (.native called (.base .ipairs)))
    (hroom : s₂.machine.frames.length < s₂.machine.callLimit) :
    runStat (fuel + 4) a scope (.genericFor line [i, v] [.call callLine callee args] block) s =
      Loop.run (pairsLoop a scope i v block s₂.machine.functions.size r) (fuel + 3)
        (.number (Number.ofInt 0)) s₂.withIterator := by
  obtain ⟨vs, s₃, hvs, hgo⟩ := Run.exists_of_bind_ok hargs
  obtain ⟨_, s₄, hgo, hlast⟩ := Run.exists_of_bind_ok hgo
  cases hlast
  have hvalues {s₀ : Session} (hcallee : eval (fuel + 1) a scope callee s₀ = .ok (.function g) s₁) :
      evalList (fuel + 3) a scope [.call callLine callee args] s₀ =
        .ok [.function s₂.machine.functions.size, .table r, .number (Number.ofInt 0)]
          s₂.withIterator := by
    refine (Run.bind_of_ok hcallee).trans ((Run.bind_of_ok hvs).trans ?_)
    have hcallable : checkCallable (describe scope callee) (.function g) s₂ = .ok () s₂ := rfl
    refine (Run.bind_of_ok hgo).trans ((Run.bind_of_ok hcallable).trans ?_)
    exact call_ipairs hg hroom fuel (.table r) _
  rw [runStat_genericFor]
  unfold evalCallee at hcallee
  split at hcallee
  · next hline =>
    obtain ⟨_, s₀, hgo, hcallee⟩ := Run.exists_of_bind_ok hcallee
    rw [if_pos hline]
    exact (Run.bind_of_ok hgo).trans (Run.bind_of_ok (hvalues hcallee))
  · next hline =>
    rw [if_neg hline]
    exact Run.bind_of_ok (hvalues hcallee)

/-- Walks along the sequence part of a table agree.  If a loop over `ipairs` has room for the calls
of its iterator, and its block neither leaves it nor fails nor assigns to the table, then it runs
the block for one index after the other, up to the length of the table, with what the table itself
holds there, and ends.  As long as the table holds that, `concat` joins the texts of the same
values, which are strings and numbers, as the operator does, or it fails at the least index where
there is no text. -/
theorem ipairs_concat_agree {fuel line callLine : ℕ} {callee : Expr} {args : List Expr}
    {called : String} {s₁ s₂ : Session}
    (hcallee : evalCallee (fuel + 1) a scope line callee s = .ok (.function g) s₁)
    (hargs : evalArguments (fuel + 1) a scope callLine args s₁ = .ok [.table r] s₂)
    (hg : s₂.machine.functions[g]? = some (.native called (.base .ipairs)))
    (hroom : s.machine.frames.length < s.machine.callLimit)
    (ht : s₂.tableAt r = t) (hsize : t.toList.length < 2 ^ 53) (hfuel : t.length < fuel + 2)
    (hbody : Spares a scope i v block s₂.machine.functions.size r t (fuel + 3) s₂.withIterator) :
    let loop := pairsLoop a scope i v block s₂.machine.functions.size r
    let Begins := loop.Begins (fuel + 3) (.number (Number.ofInt 0)) s₂.withIterator
    (∀ k < t.length, ∃ bound s', Begins k (bound + 1) (.number (Number.ofInt k)) s' ∧
      loop bound (.number (Number.ofInt k)) s' =
        blockTurn a scope bound (pairGroup s' i v) block (.number (Number.ofInt (k + 1)))
          (s'.withCells [.number (Number.ofInt (k + 1)), t.getInt (k + 1)])) ∧
    (∀ k bound x s', Begins k bound x s' → k ≤ t.length) ∧
    (∃ bound x s', Begins t.length bound x s' ∧
      runStat (fuel + 4) a scope (.genericFor line [i, v] [.call callLine callee args] block) s =
        .ok (.next scope) s') ∧
    ∀ steps call separator (concatArgs : Arguments) s', s'.Lists r t →
      concatArgs.arg 1 = .table r → concatArgs.opt .string 2 "" = pure separator →
      concatArgs.arg 3 = .nil → concatArgs.arg 4 = .nil →
      ((∃ texts, Value.Texts (t.slice 1 t.length) texts ∧
          Native.run steps call (.table .concat) concatArgs s' =
            .ok [.string (separator.intercalate texts)] s') ∨
        ∃ k < t.length, (∀ j < k, (t.getInt (j + 1)).IsTextual) ∧ ¬(t.getInt (k + 1)).IsTextual ∧
          Native.run steps call (.table .concat) concatArgs s' =
            Report.raise .runtime (.notConcatenable (k + 1)) s') ∧
      ∀ v w x y, v.toText? = some x → w.toText? = some y →
        Operation.concat call v w s' = .ok (.string (x ++ y)) s' := by
  intro loop Begins
  have hroom₂ : s₂.machine.frames.length < s₂.machine.callLimit := by
    have hdepth := (evalCallee_regular a scope (fuel + 1) line callee).sameDepth s
    have hdepth' := (evalArguments_regular a scope (fuel + 1) callLine args).sameDepth s₁
    rw [Run.after_of_ok hcallee] at hdepth
    rw [Run.after_of_ok hargs] at hdepth'
    rw [(hdepth.trans hdepth').length_eq, (hdepth.trans hdepth').callLimit_eq]
    exact hroom
  have hiterates : s₂.withIterator.Iterates s₂.machine.functions.size :=
    ⟨⟨_, Array.getElem?_push_size⟩, hroom₂⟩
  have hlists : s₂.withIterator.Lists r t := fun i ↦ congrArg (Table.getInt · i) ht
  have hfuel : t.length + 1 < fuel + 3 := Nat.succ_lt_succ hfuel
  refine ⟨fun k hk ↦ ?_, fun k bound x s' h ↦ ?_, ?_,
    fun steps call separator concatArgs s' hs' htable hseparator hfirst hlast ↦ ⟨?_, ?_⟩⟩
  · obtain ⟨s', h⟩ := pairsLoop_begins a scope hsize hfuel hiterates hlists hbody hk.le
    obtain ⟨bound, hbound⟩ : ∃ bound, fuel + 3 - k = bound + 1 + 1 := ⟨fuel + 1 - k, by omega⟩
    refine ⟨bound + 1, s', hbound ▸ h.begins, ?_⟩
    exact (pairsLoop_turn a scope hsize h.iterates h.lists hk.le bound).trans (if_pos hk)
  · exact turns_le_length a scope hsize hfuel hiterates hlists hbody h
  · obtain ⟨s', h, hrun⟩ := pairsLoop_run a scope hsize hfuel hiterates hlists hbody
    exact ⟨_, _, s', h.begins, (runStat_pairs a scope hcallee hargs hg hroom₂).trans hrun⟩
  · exact Sequence.concat_sequence hs' hsize htable hseparator hfirst hlast
  · intro v w x y hv hw
    rw [Operation.concat, hv, hw]
    rfl

/-- A loop with an empty block goes over a table with a text and a number. -/
theorem ipairs_concat_agree_pair :
    let t := (Table.empty.setInt 1 (.string "a")).setInt 2 (.number 7)
    let functions := #[Function.native "ipairs" (.base .ipairs)]
    let cells := #[Value.function 0, .table 0]
    let s : Session :=
      ⟨{ Machine.initial 200 with tables := #[t], functions, cells }, World.initial⟩
    let a : Activation := ⟨"chunk", []⟩
    let scope : Scope := [[("ipairs", 0), ("t", 1)]]
    let walk : Stat := .genericFor 1 ["i", "v"] [.call 1 (.name "ipairs") [.name "t"]] []
    (evalCallee 8 a scope 1 (.name "ipairs") s = .ok (.function 0) s ∧
      evalArguments 8 a scope 1 [.name "t"] s = .ok [.table 0] s ∧
      t.toList.length < 2 ^ 53 ∧ t.length = 2 ∧
      Spares a scope "i" "v" [] 1 0 t 10 s.withIterator) ∧
    (∃ s', runStat 11 a scope walk s = .ok (.next scope) s') ∧
    ∃ texts, Value.Texts [.string "a", .number 7] texts ∧
      Native.run 0 (fun _ _ _ ↦ pure []) (.table .concat) [.table 0, .string ","] s =
        .ok [.string (String.intercalate "," texts)] s := by
  intro t functions cells s a scope walk
  have hget (j : ℕ) (hj : j ≤ 2 ^ 53) :
      t.getInt j = if 2 = j then .number 7 else if 1 = j then .string "a" else .nil :=
    (Table.getInt_setInt (i := 2) (by decide) hj _).trans <| congrArg (ite (2 = j) _) <|
      (Table.getInt_setInt (i := 1) (by decide) hj _).trans <|
        congrArg (ite (1 = j) _) (Table.getInt_empty j)
  have hlength : t.length = 2 := by
    refine Table.length_eq (by decide) (fun j hj ↦ ?_) (hget 3 (by decide))
    obtain rfl | rfl : j = 0 ∨ j = 1 := by omega
    · exact (hget 1 (by decide)).trans_ne nofun
    · exact (hget 2 (by decide)).trans_ne nofun
  have hsize : t.toList.length < 2 ^ 53 := by
    have hfirst := Table.size_setInt_le .empty 1 (.string "a")
    have hsecond := Table.size_setInt_le (Table.empty.setInt 1 (.string "a")) 2 (.number 7)
    exact (t.length_toList_le.trans (hsecond.trans (Nat.succ_le_succ hfirst))).trans_lt (by decide)
  have hcallee : evalCallee 8 a scope 1 (.name "ipairs") s = .ok (.function 0) s := rfl
  have hargs : evalArguments 8 a scope 1 [.name "t"] s = .ok [.table 0] s := rfl
  have hbody : Spares a scope "i" "v" [] 1 0 t 10 s.withIterator := by
    intro k bound x s₁ hbegins hk
    have hbound := hbegins.add_eq
    obtain ⟨bound, rfl⟩ : ∃ b, bound = b + 2 := ⟨bound - 2, by omega⟩
    exact ⟨_, _, rfl, fun _ ↦ rfl⟩
  obtain ⟨-, -, ⟨_, _, s', -, hrun⟩, hconcat⟩ :=
    ipairs_concat_agree a scope hcallee hargs rfl (by decide) (t := t) rfl hsize (by omega) hbody
  have hslice : t.slice 1 t.length = [.string "a", .number 7] := by
    rw [hlength]
    exact congrArg₂ (fun v w ↦ [v, w]) (hget 1 (by decide)) (hget 2 (by decide))
  refine ⟨⟨hcallee, hargs, hsize, hlength, hbody⟩, ⟨s', hrun⟩, ?_⟩
  rcases (hconcat 0 (fun _ _ _ ↦ pure []) "," [.table 0, .string ","] s (fun _ ↦ rfl) rfl rfl rfl
    rfl).1 with hjoined | ⟨k, hk, -, hnone, -⟩
  · exact hslice ▸ hjoined
  · refine (hnone ?_).elim
    obtain rfl | rfl : k = 0 ∨ k = 1 := by omega
    · exact (hget 1 (by decide)).symm ▸ .inl rfl
    · exact (hget 2 (by decide)).symm ▸ .inr rfl

end Evaluation

end LuaEmbed
