import LuaEmbed.Proofs.Lists.Constructors
import LuaEmbed.Proofs.Numbers.Integers
import LuaEmbed.Proofs.Numbers.Overflow
import LuaEmbed.Proofs.Runs.Protection
import LuaEmbed.Proofs.Tables.Sequences

/-!
# Lists of values

A list of values is bound by the parameters of a function, spliced into a table or a call, cut by
`select` and read back by `unpack`.
-/

namespace LuaEmbed

open Library

variable {vs : List Value} {t : Table} {i : ℕ}

namespace Table

/-! ## Tables that hold a list -/

/-- The entries that values get from an index on: none for `nil`. -/
def listed (i : ℕ) : List Value → List (Value × Value)
  | [] => []
  | v :: vs => (if v.isNil then [] else [(.number (Number.ofInt i), v)]) ++ listed (i + 1) vs

theorem mem_listed {name v : Value} :
    (name, v) ∈ listed i vs ↔
      ∃ j : ℕ, vs[j]? = some v ∧ v ≠ .nil ∧ name = .number (Number.ofInt (i + j : ℕ)) := by
  induction vs generalizing i with
  | nil => simp [listed]
  | cons w vs ih =>
      rw [listed, List.mem_append, ih]
      constructor
      · rintro (h | ⟨j, hj, hv, rfl⟩)
        · split at h
          · exact nomatch h
          · next hw =>
            cases List.mem_singleton.1 h
            exact ⟨0, rfl, fun hnil ↦ hw (Value.isNil_iff.2 hnil), rfl⟩
        · exact ⟨j + 1, hj, hv, by rw [Nat.add_right_comm, Nat.add_assoc]⟩
      · rintro ⟨j, hj, hv, rfl⟩
        cases j with
        | zero =>
            cases hj
            rw [if_neg fun hnil ↦ hv (Value.isNil_iff.1 hnil)]
            exact .inl (List.mem_singleton.2 rfl)
        | succ j => exact .inr ⟨j, hj, hv, by rw [Nat.add_right_comm, Nat.add_assoc]⟩

/-- A key without entry gets the last one, unless it is given `nil`.  Others get none. -/
theorem setInt_of_index_none (hkey : t.index[keyOfInt i]? = none) (v : Value) :
    (t.setInt i v).toList =
        t.toList ++ (if v.isNil then [] else [(.number (Number.ofInt i), v)]) ∧
      ∀ k, keyOfInt i ≠ k → t.index[k]? = none → (t.setInt i v).index[k]? = none := by
  rw [setInt, setKey]
  split
  · next hsome => cases hkey.symm.trans hsome
  · split
    · next hnil => exact ⟨(List.append_nil _).symm, fun _ _ hk ↦ hk⟩
    · next hvalue =>
      refine ⟨?_, fun k hne hk ↦ ?_⟩
      · simp [toList, append, hvalue, intKey]
      · simp [append, Std.HashMap.getElem?_insert, hne, hk]

/-- Keys without entries get them in order. -/
theorem toList_setFrom (hrange : i + vs.length ≤ 2 ^ 53 + 1)
    (hkeys : ∀ j : ℕ, i ≤ j → j < i + vs.length → t.index[keyOfInt j]? = none) :
    (t.setFrom i vs).toList = t.toList ++ listed i vs := by
  induction vs generalizing t i with
  | nil => exact (List.append_nil _).symm
  | cons v vs ih =>
      rw [List.length_cons] at hrange hkeys
      obtain ⟨hlist, hothers⟩ := setInt_of_index_none (hkeys i (Nat.le_refl i) (by omega)) v
      rw [setFrom, ih (by omega), hlist, listed, List.append_assoc]
      intro j hij hj
      refine hothers _ (fun heq ↦ ?_) (hkeys j (by omega) (by omega))
      have := keyOfInt_injective (by omega) (by omega) heq
      omega

/-- The raw entries of a table are the values of a list that are not `nil`, under their places, and
nothing else. -/
def Holds (t : Table) (vs : List Value) : Prop :=
  ∀ name v, (name, v) ∈ t.toList ↔
    ∃ i : ℕ, vs[i]? = some v ∧ v ≠ .nil ∧ name = .number (Number.ofInt (i + 1))

theorem holds_setFrom (hlength : vs.length ≤ 2 ^ 53) : (Table.empty.setFrom 1 vs).Holds vs := by
  intro name v
  rw [toList_setFrom (by omega) fun j _ _ ↦ by simp [empty]]
  refine mem_listed.trans (exists_congr fun j ↦ ?_)
  rw [Nat.cast_add, Nat.cast_one, Int.add_comm]

/-- A table that holds a list has under each integer the value at that place, also where it is
`nil`. -/
theorem Holds.getInt_eq (h : t.Holds vs) (hlength : vs.length ≤ 2 ^ 53) {j : ℕ}
    (hj : j < vs.length) : t.getInt (j + 1) = vs[j] := by
  have hget : t.get (.number (intKey (j + 1))) = t.getInt (j + 1) := by
    rw [get, ofValue_intKey]
    rfl
  -- A value other than `nil` is at one place of the list only.
  have hvalue (v : Value) (hv : v ≠ .nil) : t.getInt (j + 1) = v ↔ vs[j] = v := by
    rw [← hget]
    refine ((and_iff_right hv).symm.trans exists_mem_toList_iff.symm).trans ⟨?_, fun hat ↦ ?_⟩
    · rintro ⟨name, hmem, heq⟩
      obtain ⟨i, hi, -, rfl⟩ := (h name v).1 hmem
      obtain ⟨hlt, rfl⟩ := List.getElem?_eq_some_iff.1 hi
      have hkey := (Key.rawEqual_iff (Key.isKey_of_ofValue (ofValue_intKey _))).1 heq
      have hkey : keyOfInt (i + 1 : ℕ) = keyOfInt (j + 1 : ℕ) :=
        Except.ok.inj ((ofValue_intKey _).symm.trans (hkey.trans (ofValue_intKey _)))
      have := keyOfInt_injective (by omega) (by omega) hkey
      obtain rfl : i = j := by omega
      rfl
    · refine ⟨_, (h _ v).2 ⟨j, List.getElem?_eq_some_iff.2 ⟨hj, hat⟩, hv, rfl⟩, ?_⟩
      exact (Key.rawEqual_iff (Key.isKey_of_ofValue (ofValue_intKey _))).2 rfl
  by_cases hnil : vs[j] = .nil
  · refine by_contra fun hne ↦ hne ?_
    have hnone : t.getInt (j + 1) = .nil := by_contra fun hsome ↦
      hsome (((hvalue _ hsome).1 rfl).symm.trans hnil)
    rw [hnone, hnil]
  · exact (hvalue _ hnil).2 rfl

theorem Holds.slice_eq (h : t.Holds vs) (hlength : vs.length ≤ 2 ^ 53) :
    t.slice 1 vs.length = vs := by
  refine List.ext_getElem (by simp [slice]) fun j hj hj' ↦ ?_
  simp only [slice, List.getElem_map, List.getElem_range]
  rw [← h.getInt_eq hlength hj', Int.add_comm]
  rfl

end Table

/-! ## `select` and `unpack` -/

namespace Library.Base

open Number

variable {s : Session} {x : Float} {z : ℤ} {r : Ref}

theorem select_count (vs : List Value) (s : Session) :
    select (.string "#" :: vs) s = .ok [.number (ofNat vs.length)] s := by
  have hcount : ((List.length (Value.string "#" :: vs) : ℤ) - 1) = (vs.length : ℕ) := by
    rw [List.length_cons]
    omega
  have hsharp : (Arguments.arg (Value.string "#" :: vs) 1).rawEqual (.string "#") = true :=
    beq_self_eq_true "#"
  rw [select, if_pos hsharp, hcount]
  rfl

/-- What `select` does with an integer.  Those that are out of range for 64 bits are out of range
for the values as well. -/
theorem select_eq (hx : HasValue x z) (hn : vs.length ≤ 1000000) (s : Session) :
    select (.number x :: vs) s =
      if 1 ≤ z then .ok (vs.drop (z.toNat - 1)) s
      else if z = 0 ∨ z < -vs.length then Report.argument .runtime 1 .indexOutOfRange s
      else .ok (vs.drop (vs.length - z.natAbs)) s := by
  obtain ⟨n, hvalue⟩ : ∃ n, n = toInt64 x := ⟨_, rfl⟩
  have hclamp : (1 ≤ z → 1 ≤ n ∧ (n = z ∨ 1000000 < n ∧ 1000000 < z)) ∧
      (z < -vs.length → n < -vs.length) ∧ (z ≤ 0 → -vs.length ≤ z → n = z) := by
    rw [hvalue, hx.toInt64_eq, clamp, int64Min, int64Max]
    grind
  have hcheck : Arguments.check (.number x :: vs) .integer 1 = pure n := by rw [hvalue]; rfl
  have hcount : ((List.length (Value.number x :: vs) : ℤ) - 1) = (vs.length : ℕ) := by
    rw [List.length_cons]
    omega
  obtain ⟨start, hstart⟩ : ∃ start : ℤ, start = if n < 0 then vs.length + n else n - 1 := ⟨_, rfl⟩
  have hselect : select (.number x :: vs) s =
      if n = 0 ∨ start < 0 then Report.argument .runtime 1 .indexOutOfRange s
      else .ok (vs.drop start.toNat) s := by
    rw [select, if_neg (by exact Bool.false_ne_true), hcheck, hcount, pure_bind]
    dsimp only
    rw [← hstart]
    by_cases hrange : n = 0 ∨ start < 0
    · rw [if_pos hrange, if_pos (by simpa using hrange)]
      rfl
    · rw [if_neg hrange, if_neg (by simpa using hrange), Nat.add_comm, List.drop_succ_cons]
      rfl
  rw [hselect]
  rcases lt_or_ge 0 z with hpos | hneg
  · obtain ⟨hone, hsame | ⟨hlarge, hlarge'⟩⟩ := hclamp.1 hpos
    · rw [if_neg (by omega), if_pos (by omega)]
      congr 2
      omega
    · rw [if_neg (by omega), if_pos (by omega), List.drop_eq_nil_of_le (by omega),
        List.drop_eq_nil_of_le (by omega)]
  · rw [if_neg (by omega : ¬1 ≤ z)]
    by_cases hrange : z = 0 ∨ z < -vs.length
    · rw [if_pos hrange, if_pos (by omega)]
    · rw [if_neg hrange, if_neg (by omega)]
      congr 2
      omega

/-- What `unpack` reads off a table, up to an integer. -/
theorem unpack_eq {y : Float} {n : ℕ} (hx : HasValue x 1) (hy : HasValue y n) (hn : n ≤ 1000000)
    (s : Session) :
    unpack [.table r, .number x, .number y] s = .ok ((s.tableAt r).slice 1 n) s := by
  have hrange : int64Min ≤ 1 ∧ 1 ≤ int64Max ∧ int64Min ≤ n ∧ (n : ℤ) ≤ int64Max := by
    simp only [int64Min, int64Max]
    omega
  have hfirst : Arguments.opt [.table r, .number x, .number y] .integer 2 1 = pure 1 := by
    have hx : HasValue x (1 : ℤ) := by exact_mod_cast hx
    have hone : toInt64 x = 1 := hx.toInt64_eq.trans (clamp_of_mem hrange.1 hrange.2.1)
    rw [← hone]
    rfl
  have hlast (m : ℤ) :
      Arguments.opt [.table r, .number x, .number y] .integer 3 m = pure (n : ℤ) := by
    have hy : HasValue y (n : ℤ) := by exact_mod_cast hy
    have hn : toInt64 y = n := hy.toInt64_eq.trans (clamp_of_mem hrange.2.2.1 hrange.2.2.2)
    rw [← hn]
    rfl
  have hfew : ¬(decide ((1 : ℤ) ≤ n) && decide (maxUnpacked ≤ (n : ℤ) - 1)) = true := by
    have hmax : maxUnpacked = 1000000 := rfl
    simp only [hmax, Bool.and_eq_true, decide_eq_true_eq]
    omega
  have hlength : Heap.length r s = .ok (s.tableAt r).length s := rfl
  have hcount : ((n : ℤ) + 1 - 1).toNat = n := by omega
  rw [unpack, Arguments.check_table (r := r) rfl, hfirst, pure_bind, pure_bind]
  refine (Run.bind_of_ok hlength).trans ?_
  rw [hlast, pure_bind, if_neg hfew, hcount]
  rfl

end Library.Base

/-! ## Lists in a program -/

namespace Evaluation

open Number
open Refers (avoids)

variable {s s' : Session} {f : Ref} {called : String}

section Native

variable {op : Native} {fuel : ℕ} {args results : List Value} {name : Option String}
  (hf : s.machine.functions[f]? = some (.native called op))
  (hroom : s.machine.frames.length < s.machine.callLimit)

include hf hroom

/-- A host function that changes nothing is called without a change. -/
theorem call_native_ok (hrun : op.run fuel (call fuel) args (s.mapFrames (.native name :: ·)) =
      .ok results (s.mapFrames (.native name :: ·))) :
    call (fuel + 1) (.function f) args name s = .ok results s := by
  have hrun : op.run fuel (Program.call fuel) args _ = _ := hrun
  refine (Program.call_native hf fuel args name).trans ?_
  rw [Run.activate, if_neg (Nat.not_le_of_lt hroom), hrun]
  rfl

theorem call_native_error {e : Abort}
    (hrun : op.run fuel (call fuel) args (s.mapFrames (.native name :: ·)) =
      .error e (s.mapFrames (.native name :: ·))) :
    call (fuel + 1) (.function f) args name s = .error e s := by
  have hrun : op.run fuel (Program.call fuel) args _ = _ := hrun
  refine (Program.call_native hf fuel args name).trans ?_
  rw [Run.activate, if_neg (Nat.not_le_of_lt hroom), hrun]
  rfl

end Native

/-- Parameters take no more values than there are names. -/
theorem declare_append {names : List String} {first : List Value}
    (h : first.length = names.length) (vs : List Value) :
    declare names (first ++ vs) = declare names first := by
  induction names generalizing first with
  | nil => rfl
  | cons x xs ih =>
      match first with
      | v :: first => simp [declare, ih (Nat.succ.inj h)]

/-- The arguments of a vararg function that its parameters leave are its `...`. -/
theorem runBody_varargs {body : Body} (hbody : body.isVararg = true) {first : List Value}
    (hfirst : first.length = body.params.length) (fuel : ℕ) (chunk : String) (scope : Scope)
    (vs : List Value) :
    runBody (fuel + 1) body chunk scope (first ++ vs) = (do
      let params ← declare body.params first
      match ← runBlock fuel ⟨chunk, vs⟩ (params :: scope) body.block with
      | .leaveFunction values => return values
      | _ => return []) := by
  rw [runBody, declare_append hfirst, if_pos hbody]
  refine bind_congr fun params ↦ ?_
  exact congrArg (fun varargs ↦ runBlock fuel ⟨chunk, varargs⟩ (params :: scope) body.block >>= _)
    (List.drop_left' hfirst)

/-- A constructor with `...` gives a new table the values that `...` stands for. -/
theorem eval_table_vararg (a : Activation) (scope : Scope) (fuel : ℕ) (s : Session) :
    eval (fuel + 3) a scope (.table [.positional .vararg]) s =
      .ok (.table s.machine.tables.size) ((Heap.newTable.after s).put s.machine.tables.size
        (Table.empty.setFrom 1 a.varargs)) := by
  have hfields : evalFields (fuel + 2) a scope s.machine.tables.size 1 [.positional .vararg]
      (Heap.newTable.after s) = _ :=
    (Run.bind_of_ok rfl).trans (Heap.modifyTable_eq ..)
  rw [tableAt_newTable] at hfields
  exact (Run.bind_of_ok (Heap.newTable_eq s)).trans (Run.bind_of_ok hfields)

/-- Lists of values are handed on as they are.  In a vararg function that is called with a list,
`...` stands for that list, and a constructor with `...` gives a table with exactly its values that
are not `nil`.  A constructor, whose table nothing refers to before it is created, and a call get
the same list from the same expressions: the values of all but the last, and then those of the
last, so that it may come from `...`, from a call or from an expression for each value.  `select`
counts the list, cuts it from either end or fails, and `unpack` reads it back. -/
theorem varargs_agree {vs : List Value} (hn : vs.length ≤ 1000000) (fuel : ℕ) (s : Session) :
    (∀ q body chunk scope first name, s.machine.functions[q]? = some (.script body chunk scope) →
      body.isVararg = true → first.length = body.params.length →
      call (fuel + 2) (.function q) (first ++ vs) name s =
        Run.activate (.script name chunk body.line) (do
          let params ← declare body.params first
          match ← runBlock fuel ⟨chunk, vs⟩ (params :: scope) body.block with
          | .leaveFunction values => return values
          | _ => return []) s) ∧
    (∀ (a : Activation) (scope : Scope), a.varargs = vs →
      evalList (fuel + 2) a scope [.vararg] s = .ok vs s ∧
      ∃ t, t.Holds vs ∧ eval (fuel + 3) a scope (.table [.positional .vararg]) s =
        .ok (.table s.machine.tables.size)
          ((Heap.newTable.after s).put s.machine.tables.size t)) ∧
    (∀ (a : Activation) (scope : Scope) es s',
      (∀ vss, Run.inOrder (valueSteps a scope fuel es) s = .ok vss s' → vss.flatten = vs →
        evalList fuel a scope es s = .ok vs s') ∧
      ((∀ e ∈ es, e.isMulti = false) → Run.inOrder (singleSteps a scope fuel es) s = .ok vs s' →
        evalList fuel a scope es s = .ok vs s') ∧
      (s.Fresh → avoids s.machine.tables.size a.varargs →
        evalList fuel a scope es (Heap.newTable.after s) = .ok vs s' →
        ∃ t, t.Holds vs ∧ eval (fuel + 1) a scope (.table (es.map .positional)) s =
          .ok (.table s.machine.tables.size) (s'.put s.machine.tables.size t)) ∧
      ∀ line callee g s₁, eval fuel a scope callee s = .ok g s₁ →
        evalList fuel a scope es s₁ = .ok vs s' →
        evalMulti (fuel + 1) a scope (.call line callee es) s = (do
          goToLine line
          checkCallable (describe scope callee) g
          call fuel g vs (calleeName callee)) s') ∧
    (s.machine.frames.length < s.machine.callLimit →
      (∀ f called name, s.machine.functions[f]? = some (.native called (.base .select)) →
        call (fuel + 1) (.function f) (.string "#" :: vs) name s =
          .ok [.number (ofNat vs.length)] s ∧
        ∀ x (z : ℤ), HasValue x z →
          (1 ≤ z → call (fuel + 1) (.function f) (.number x :: vs) name s =
            .ok (vs.drop (z.toNat - 1)) s) ∧
          (-vs.length ≤ z → z ≤ -1 → call (fuel + 1) (.function f) (.number x :: vs) name s =
            .ok (vs.drop (vs.length - z.natAbs)) s) ∧
          (z = 0 ∨ z < -vs.length → ∃ e, e.kind = .runtime ∧
            call (fuel + 1) (.function f) (.number x :: vs) name s = .error (.fault e) s)) ∧
      ∀ f called name r x y, s.machine.functions[f]? = some (.native called (.base .unpack)) →
        (s.tableAt r).Holds vs → HasValue x 1 → HasValue y vs.length →
        call (fuel + 1) (.function f) [.table r, .number x, .number y] name s = .ok vs s) := by
  have hlength : vs.length ≤ 2 ^ 53 := hn.trans (by decide)
  refine ⟨fun q body chunk scope first name hq hbody hfirst ↦ ?_, fun a scope ha ↦ ?_,
    fun a scope es s' ↦ ⟨fun vss h hvs ↦ ?_, fun hes h ↦ ?_, fun hs ha h ↦ ?_,
      fun line callee g s₁ hg h ↦ ?_⟩,
    fun hroom ↦ ⟨fun f called name hf ↦ ⟨?_, fun x z hx ↦ ⟨fun hz ↦ ?_, fun hz hz' ↦ ?_,
      fun hz ↦ ?_⟩⟩, fun f called name r x y hf hr hx hy ↦ ?_⟩⟩
  · have hfunction : Heap.function? q s = .ok (some (.script body chunk scope)) s :=
      congrArg (EStateM.Result.ok · s) hq
    rw [← runBody_varargs hbody hfirst]
    exact Run.bind_of_ok hfunction
  · exact ⟨ha ▸ rfl, _, Table.holds_setFrom hlength, ha ▸ eval_table_vararg a scope fuel s⟩
  · rw [evalList_eq, ← bind_pure_comp, ← hvs]
    exact Run.bind_of_ok h
  · rw [evalList_of_single a scope hes, h]
  · exact ⟨_, Table.holds_setFrom hlength, eval_table scope hs ha h⟩
  · exact (Run.bind_of_ok hg).trans (Run.bind_of_ok h)
  · exact call_native_ok hf hroom (Base.select_count vs _)
  · exact call_native_ok hf hroom ((Base.select_eq hx hn _).trans (if_pos hz))
  · refine call_native_ok hf hroom ((Base.select_eq hx hn _).trans ?_)
    rw [if_neg (by omega), if_neg (by omega)]
  · have hselect := Base.select_eq hx hn (s.mapFrames (.native name :: ·))
    rw [if_neg (by omega), if_pos hz] at hselect
    exact ⟨_, rfl, call_native_error hf hroom hselect⟩
  · refine call_native_ok hf hroom ((Base.unpack_eq hx hy hn _).trans ?_)
    exact congrArg (EStateM.Result.ok · _) (hr.slice_eq hlength)

/-- A list with `nil` in it and at its end: as `...`, as the results of a call, and written out. -/
theorem varargs_agree_nils :
    let vs : List Value := [.number 1, .nil, .string "a", .nil]
    let body : Body := ⟨[], true, 1, [.return_ 1 [.vararg]]⟩
    let functions := #[Function.native "select" (.base .select),
      .native "unpack" (.base .unpack), .script body "chunk" []]
    let cells := #[Value.function 2]
    let s : Session := ⟨{ Machine.initial 200 with functions, cells }, World.initial⟩
    let s₁ := Heap.newTable.after s
    let a : Activation := ⟨"chunk", vs⟩
    let scope : Scope := [[("f", 0)]]
    let es : List Expr := [.number 1, .nil, .string "a", .nil]
    let called : Expr := .call 1 (.name "f") [.vararg]
    (s.Fresh ∧ avoids 2 a.varargs) ∧
    (∃ t, t.Holds vs ∧
      eval 13 a scope (.table [.positional .vararg]) s = .ok (.table 2) (s₁.put 2 t) ∧
      call 11 (.function 1) [.table 2, .number (ofInt 1), .number (ofInt 4)] none (s₁.put 2 t) =
        .ok vs (s₁.put 2 t)) ∧
    (∃ t, t.Holds vs ∧ eval 11 a scope (.table (es.map .positional)) s =
      .ok (.table 2) (s₁.put 2 t)) ∧
    (∃ t, t.Holds vs ∧ eval 11 a scope (.table [.positional called]) s =
      .ok (.table 2) (s₁.put 2 t)) ∧
    call 11 (.function 0) (.string "#" :: vs) none s = .ok [.number (ofNat 4)] s ∧
    call 11 (.function 0) (.number (ofInt 3) :: vs) none s = .ok [.string "a", .nil] s ∧
    call 11 (.function 0) (.number (ofInt (-1)) :: vs) none s = .ok [.nil] s ∧
    ∃ e, e.kind = .runtime ∧
      call 11 (.function 0) (.number (ofInt (-5)) :: vs) none s = .error (.fault e) s := by
  intro vs body functions cells s s₁ a scope es called
  have ha : avoids 2 a.varargs := by
    simp only [a, vs, Refers.avoids_cons, Refers.avoids_nil, Refers.avoids_value]
    simp
  have hfresh : s.Fresh := by
    refine ⟨by decide, fun {q t} _ ht ↦ ?_, fun {c v} hv ↦ ?_, nofun, by decide, by decide, nofun⟩
    · have hempty : t = .empty := by
        match q, ht with
        | 0, ht | 1, ht | 2, ht => exact (Option.some.inj ht).symm
      exact hempty ▸ Refers.avoids_empty 2
    · match c, hv with
      | 0, hv => exact Option.some.inj hv ▸ nofun
  obtain ⟨-, hvararg, hways, hcalls⟩ := @varargs_agree vs (by decide) 10 s
  obtain ⟨hselect, -⟩ := hcalls (by decide)
  obtain ⟨hcount, hcut⟩ := hselect 0 "select" none rfl
  obtain ⟨-, t, ht, htable⟩ := hvararg a scope rfl
  obtain ⟨-, -, -, hcalls⟩ := @varargs_agree vs (by decide) 10 (s₁.put 2 t)
  have hunpack := (hcalls (by decide : 0 < 200)).2 1 "unpack" none 2 (ofInt 1) (ofInt 4) rfl
  refine ⟨⟨hfresh, ha⟩, ⟨t, ht, htable, hunpack ?_ ?_ ?_⟩, ?_, ?_, hcount, ?_, ?_, ?_⟩
  · exact (Session.tableAt_put hfresh t).symm ▸ ht
  · exact_mod_cast hasValue_ofInt_of_lt (z := 1) (by decide)
  · exact_mod_cast hasValue_ofInt_of_lt (z := 4) (by decide)
  · exact (hways a scope es s₁).2.2.1 hfresh ha rfl
  · exact (hways a scope [called] s₁).2.2.1 hfresh ha rfl
  · exact (hcut (ofInt 3) 3 (hasValue_ofInt_of_lt (by decide))).1 (by decide)
  · exact (hcut (ofInt (-1)) (-1) (hasValue_ofInt_of_lt (by decide))).2.1 (by decide) (by decide)
  · exact (hcut (ofInt (-5)) (-5) (hasValue_ofInt_of_lt (by decide))).2.2 (by decide)

end Evaluation

end LuaEmbed
