import LuaEmbed.Proofs.Numbers.Checked
import Mathlib

/-!
# Where integers leave their range

Two host functions form an integer that does not fit into its word, a step of `ipairs` and `concat`,
and `Overflows` says when.  Apart from this the functions with checks do what the functions without
them do.
-/

namespace LuaEmbed

open Library

/-! ## Where a result does not fit -/

/-- The table at a place of the heap. -/
def Session.tableAt (s : Session) (r : Ref) : Table := s.machine.tables[r]?.getD .empty

/-- What any memory can hold: fewer arguments and entries than there are signed words, and no longer
strings. -/
structure InMemory (args : Arguments) (s : Session) : Prop where
  arguments : args.length ≤ Number.int64Max
  strings : ∀ n x, args.arg n = .string x → x.utf8ByteSize ≤ Number.int64Max
  tables : ∀ t ∈ s.machine.tables, t.entries.size < Number.int64Max

/-- The argument is the greatest integer, or is taken for it. -/
def Arguments.IsGreatest (args : Arguments) (n : Nat) : Prop :=
  ∃ x, args.arg n = .number x ∧ Number.toInt64 x = Number.int64Max

/-- A step of `ipairs` from the greatest integer on, and a `concat` up to it that finds a text under
each of its keys. -/
def Overflows (op : Native) (args : Arguments) (s : Session) : Prop :=
  match op with
  | .base .ipairsStep => (∃ r, args.arg 1 = .table r) ∧ args.IsGreatest 2
  | .table .concat => ∃ r separator i, args.arg 1 = .table r ∧
      args.opt .string 2 "" = pure separator ∧ args.opt .integer 3 1 = pure i ∧ args.IsGreatest 4 ∧
      ∀ k, i ≤ k → k ≤ Number.int64Max →
        ((s.tableAt r).getInt k).toText?.isSome = true
  | _ => False

namespace Arguments

variable {args : Arguments} {n : Nat}

theorem get?_integer_greatest (h : Extractor.integer.get? (args.arg n) = some Number.int64Max) :
    args.IsGreatest n := by
  unfold IsGreatest
  cases hv : args.arg n with
  | number x =>
      rw [hv] at h
      exact ⟨x, rfl, Option.some.inj h⟩
  | _ =>
      rw [hv] at h
      exact nomatch h

end Arguments

namespace Checked

variable {code : Int} {n : Nat} {i j : Int}

/-! ## Functions on tables -/

section Tables

variable {β : Type} {args : Arguments} {s : Session} {r : Ref} {f g : Nat → Run β}

theorem size_lt (hmem : InMemory args s) (r : Ref) :
    (s.tableAt r).entries.size < Number.int64Max := by
  rw [Session.tableAt]
  cases ht : s.machine.tables[r]? with
  | some t => exact hmem.tables t (Array.mem_of_getElem? ht)
  | none => decide

theorem borderFrom_le (t : Table) (fuel n : Nat) : t.borderFrom fuel n ≤ n + fuel := by
  induction fuel generalizing n with
  | zero => exact Nat.le_refl n
  | succ fuel ih =>
      rw [Table.borderFrom]
      split
      · omega
      · exact Nat.le_trans (ih (n + 1)) (by omega)

theorem length_lt (hmem : InMemory args s) (r : Ref) :
    (s.tableAt r).length < Number.int64Max := by
  have hborder := borderFrom_le (s.tableAt r) (s.tableAt r).entries.size 0
  have hsize := size_lt hmem r
  rw [Table.length]
  omega

theorem length_eq (hmem : InMemory args s) (r : Ref) :
    length code r s = Heap.length r s := by
  have hsize := size_lt hmem r
  change lengthFrom code (s.tableAt r) (s.tableAt r).entries.size 0 s = _
  rw [lengthFrom_eq (by omega)]
  rfl

/-- The length of a table, counted up, is the length that it has. -/
theorem length_bind (hmem : InMemory args s) :
    (length code r >>= f) s = f (s.tableAt r).length s := Run.bind_of_ok (length_eq hmem r)

theorem length_bind_congr (hmem : InMemory args s)
    (h : f (s.tableAt r).length s = g (s.tableAt r).length s) :
    (length code r >>= f) s = (Heap.length r >>= g) s := (length_bind hmem).trans h

theorem ipairsStep_eq (h : ¬ Overflows (.base .ipairsStep) args s) :
    ipairsStep code args s = Base.ipairsStep args s := by
  refine Arguments.reads_check.bind_congr fun r hr _ ↦ ?_
  refine Arguments.reads_check.bind_congr fun i hi _ ↦ ?_
  have hmem := Arguments.get?_integer_mem hi
  have hne : i ≠ Number.int64Max := by
    rintro rfl
    exact h ⟨⟨r, Arguments.get?_table hr⟩, Arguments.get?_integer_greatest hi⟩
  rw [signed_of_mem (by omega) (by omega), pure_bind,
    Number.wrap64_of_mem (by omega) (by omega)]

theorem concat_eq (hmem : InMemory args s) (h : ¬ Overflows (.table .concat) args s) :
    concat code args s = Sequence.concat args s := by
  refine Arguments.reads_check.bind_congr fun r hr _ ↦ ?_
  refine Arguments.reads_opt.bind_congr fun separator _ hseparator ↦ ?_
  refine Arguments.reads_opt.bind_congr fun i hi hfirst ↦ ?_
  refine length_bind_congr hmem ?_
  refine Arguments.reads_opt.bind_congr fun j hj _ ↦ ?_
  have hlength := length_lt hmem r
  have hrange := Arguments.opt_integer_mem hi (by decide) (by decide)
  have hlast : j ≤ Number.int64Max ∧ (j = Number.int64Max → args.IsGreatest 4) := by
    rcases hj with rfl | hj
    · omega
    · exact ⟨(Arguments.get?_integer_mem hj).2,
        fun hmax ↦ Arguments.get?_integer_greatest (hmax ▸ hj)⟩
  have hjoin : joinUpTo code (s.tableAt r) separator j (j + 1 - i).toNat i "" = _ :=
    joinUpTo_joinCount hrange.1 hrange.2 hlast.1 fun hmax ↦ by
      by_contra hall
      refine h ⟨r, separator, i, Arguments.get?_table hr, hseparator, hfirst, hlast.2 hmax,
        fun k hk hkmax ↦ Option.isSome_iff_ne_none.2 fun hnone ↦ hall ⟨k, hk, hkmax, hnone⟩⟩
  change (joinUpTo code (s.tableAt r) separator j (j + 1 - i).toNat i "" >>= _) s = _
  rw [hjoin]
  rfl

theorem removeAt_eq (hmem : InMemory args s) (r : Ref) {pos : Nat}
    (hpos : pos ≤ (s.tableAt r).length) :
    removeAt code r pos s = (do
      let removed ← Heap.readTable r fun t ↦ (t.remove pos).1
      Heap.modifyTable r fun t ↦ (t.remove pos).2
      return removed : Run Value) s := by
  have hlength := length_lt hmem r
  rw [removeAt, length_bind hmem]
  change (shiftDown code ((s.tableAt r).length - pos) pos (s.tableAt r) >>= _) s = _
  rw [shiftDown_eq (by omega), pure_bind]
  have hmodify : Heap.modifyTable r (fun _ ↦ ((s.tableAt r).remove pos).2) s =
      Heap.modifyTable r (fun t ↦ (t.remove pos).2) s :=
    Heap.modifyTable_congr fun t ht ↦ by rw [Session.tableAt, ht, Option.getD_some]
  exact Run.bind_congr_start hmodify

theorem remove_eq (hmem : InMemory args s) : remove code args s = Sequence.remove args s := by
  refine Arguments.reads_check.bind_congr fun r hr _ ↦ ?_
  refine length_bind_congr hmem ?_
  split
  · rfl
  · refine Arguments.reads_opt.bind_congr fun pos hpos _ ↦ ?_
    split
    · rfl
    · next hrange =>
      have hle : pos.toNat ≤ (s.tableAt r).length := by
        simp only [Bool.or_eq_true, decide_eq_true_eq] at hrange
        omega
      exact Run.bind_congr_start (removeAt_eq hmem r hle)

theorem unpack_eq (hmem : InMemory args s) : unpack code args s = Base.unpack args s := by
  refine Arguments.reads_check.bind_congr fun r hr _ ↦ ?_
  refine Arguments.reads_opt.bind_congr fun i hi _ ↦ ?_
  refine length_bind_congr hmem ?_
  refine Arguments.reads_opt.bind_congr fun j hj _ ↦ ?_
  have hguard : (decide (i ≤ j) &&
        (decide (Number.int64Max < j - i) || decide (Base.maxUnpacked ≤ j - i))) =
      (decide (i ≤ j) && decide (Base.maxUnpacked ≤ j - i)) := by
    simp only [Number.int64Max, Base.maxUnpacked]
    grind
  have hlength := length_lt hmem r
  have hfirst := Arguments.opt_integer_mem hi (by decide) (by decide)
  have hlast := Arguments.opt_integer_mem hj (by simp only [Number.int64Min]; omega) (by omega)
  rw [hguard]
  split
  · rfl
  · change valuesUpTo code (s.tableAt r) j (j + 1 - i).toNat i s = _
    rw [valuesUpTo_eq hfirst.1 hlast.2 rfl]
    rfl

theorem select_eq (hmem : InMemory args s) : select code args s = Base.select args s := by
  have hargs := hmem.arguments
  rw [select, Base.select, signed_of_mem (by simp only [Number.int64Min]; omega) (by omega),
    pure_bind]
  split
  · rfl
  · refine Arguments.reads_check.bind_congr fun n hn _ ↦ ?_
    have hrange := Arguments.get?_integer_mem hn
    have hpos : 0 < List.length args := by
      cases args with
      | nil => cases hn
      | cons v vs => exact Nat.zero_lt_succ _
    let start := if n < 0 then (List.length args : Int) - 1 + n else n - 1
    have hstart : n ≠ 0 → Number.int64Min ≤ start ∧ start < Number.int64Max := by
      simp only [start, Number.int64Min, Number.int64Max] at *
      split <;> omega
    by_cases hzero : n = 0
    · subst hzero
      rfl
    · obtain ⟨hl, hh⟩ := hstart hzero
      rw [if_neg (by simpa using hzero), signed_of_mem hl (Int.le_of_lt hh), pure_bind]
      change (do
        if start < 0 then Report.argument .runtime 1 .indexOutOfRange
        return args.drop (← unsigned code (1 + start)) : Run (List Value)) s = (do
        if n == 0 || start < 0 then Report.argument .runtime 1 .indexOutOfRange
        return args.drop (1 + start.toNat) : Run (List Value)) s
      by_cases hnegative : start < 0
      · rw [if_pos hnegative, if_pos (by simp [hnegative])]
        rfl
      · rw [if_neg hnegative, if_neg (by simp [hzero, hnegative]),
          unsigned_of_mem (by omega) (by omega), pure_bind, Int.toNat_add (by omega) (by omega)]
        rfl

end Tables

/-! ## Functions on strings -/

section Strings

variable {args : Arguments} {s : Session} {x : String}

theorem startOf_eq (hl : Number.int64Min ≤ i) (hh : i ≤ Number.int64Max) :
    startOf code n i = pure (Strings.startOf n i) := by
  rw [startOf, Strings.startOf]
  split
  · rw [unsigned_of_mem (by omega) (by omega), pure_bind]
    congr 2
    omega
  · split
    · rw [unsigned_natCast (by simp only [Number.int64Min, Number.int64Max] at *; omega), pure_bind]
    · rfl

theorem endOf_eq (hn : n ≤ Number.int64Max) (hl : Number.int64Min ≤ j) :
    endOf code n j = pure (Strings.endOf n j) := by
  rw [endOf, Strings.endOf]
  split
  · rfl
  · rw [signed_of_mem (by omega) (by omega), pure_bind, signed_of_mem (by omega) (by omega),
      pure_bind]

theorem startOf_le (n : Nat) (i : Int) : Strings.startOf n i ≤ n := by
  rw [Strings.startOf]
  split
  · exact Nat.min_le_right _ _
  · split <;> omega

theorem endOf_le (n : Nat) (j : Int) : Strings.endOf n j ≤ n := by
  rw [Strings.endOf]
  split
  · exact Nat.min_le_right _ _
  · omega

/-- Nothing is cut out behind the end. -/
theorem extract_eq_nil {bs : ByteArray} {start stop : Nat} (h : stop ≤ start) :
    (bs.extract start stop).data.toList = [] := by
  simp [ByteArray.data_extract, h]

theorem sub_eq (hmem : InMemory args s) : sub code args s = Strings.sub args s := by
  refine Arguments.reads_check.bind_congr fun x hx _ ↦ ?_
  refine Arguments.reads_opt.bind_congr fun i hi _ ↦ ?_
  refine Arguments.reads_opt.bind_congr fun j hj _ ↦ ?_
  have hfirst := Arguments.opt_integer_mem hi (by decide) (by decide)
  have hlast := Arguments.opt_integer_mem hj (by decide) (by decide)
  have hsize := hmem.strings 1 x (Arguments.get?_string hx)
  rw [startOf_eq hfirst.1 hfirst.2, endOf_eq hsize hlast.1, pure_bind, pure_bind]
  split
  · next hempty =>
    rw [Strings.between, Text.slice, extract_eq_nil hempty]
    rfl
  · next hstart =>
    rw [range_of_le (by omega) (endOf_le ..), pure_bind]
    rfl

theorem byte_eq (hmem : InMemory args s) : byte code args s = Strings.byte args s := by
  refine Arguments.reads_check.bind_congr fun x hx _ ↦ ?_
  refine Arguments.reads_opt.bind_congr fun i hi _ ↦ ?_
  refine Arguments.reads_opt.bind_congr fun j hj _ ↦ ?_
  have hfirst := Arguments.opt_integer_mem hi (by decide) (by decide)
  have hlast := Arguments.opt_integer_mem hj hfirst.1 hfirst.2
  have hsize := hmem.strings 1 x (Arguments.get?_string hx)
  rw [startOf_eq hfirst.1 hfirst.2, endOf_eq hsize hlast.1, pure_bind, pure_bind]
  split
  · next hempty =>
    rw [Strings.bytesBetween, extract_eq_nil hempty]
    rfl
  · next hstart =>
    rw [range_of_le (by omega) (endOf_le ..), pure_bind]
    rfl

/-- The places before the list searched are added to the place of what is found. -/
theorem findFrom_add (needle bs : List UInt8) (n m : Nat) :
    Strings.findFrom needle bs (n + m) = (Strings.findFrom needle bs n).map (· + m) := by
  induction bs generalizing n with
  | nil =>
      rw [Strings.findFrom, Strings.findFrom]
      split <;> rfl
  | cons b bs ih =>
      rw [Strings.findFrom, Strings.findFrom]
      split
      · rfl
      · rw [Nat.add_right_comm, ih]

/-- What is found lies within the list searched. -/
theorem findFrom_le {needle bs : List UInt8} {p : Nat}
    (h : Strings.findFrom needle bs n = some p) : p + needle.length ≤ n + bs.length := by
  induction bs generalizing n with
  | nil =>
      rw [Strings.findFrom] at h
      split at h
      · next hempty =>
        cases h
        simp [List.isEmpty_iff.1 hempty]
      · exact nomatch h
  | cons b bs ih =>
      rw [Strings.findFrom] at h
      split at h
      · next hprefix =>
        cases h
        exact Nat.add_le_add_left (List.isPrefixOf_iff_prefix.1 hprefix).length_le _
      · have := ih h
        rw [List.length_cons]
        omega

theorem find_eq (hmem : InMemory args s) : find code args s = Strings.find args s := by
  refine Arguments.reads_check.bind_congr fun x hx _ ↦ ?_
  refine Arguments.reads_check.bind_congr fun y hy _ ↦ ?_
  refine Arguments.reads_opt.bind_congr fun i hi _ ↦ ?_
  have hfirst := Arguments.opt_integer_mem hi (by decide) (by decide)
  have hsize := hmem.strings 1 x (Arguments.get?_string hx)
  have hneedle := hmem.strings 2 y (Arguments.get?_string hy)
  have hstart := startOf_le x.utf8ByteSize i
  have hplace := findFrom_add (Text.bytes y)
    ((Text.bytes x).drop (Strings.startOf x.utf8ByteSize i)) 0 (Strings.startOf x.utf8ByteSize i)
  rw [Nat.zero_add] at hplace
  rw [startOf_eq hfirst.1 hfirst.2, pure_bind, if_neg (Nat.not_lt_of_le hstart),
    range_of_le hstart (Nat.le_refl _), pure_bind, hplace]
  cases hfound : Strings.findFrom (Text.bytes y)
    ((Text.bytes x).drop (Strings.startOf x.utf8ByteSize i)) 0 with
  | some p =>
      have hp := findFrom_le hfound
      simp only [List.length_drop, Text.length_bytes] at hp ⊢
      rw [← Int.natCast_add, unsigned_natCast (by omega), pure_bind, ← Int.natCast_add_one,
        unsigned_natCast (by omega), pure_bind, ← Int.natCast_add, unsigned_natCast (by omega),
        pure_bind]
      rfl
  | none => rfl

end Strings

end Checked

/-! ## Results and faults -/

namespace Settles

variable {args : Arguments}

theorem select : Settles (Base.select args) :=
  .ite (.pure _) <| (check _).bind fun _ ↦ .ite ((argument ..).bind fun _ ↦ .pure _) (.pure _)

theorem unpack : Settles (Base.unpack args) := by
  refine (check _).bind fun t ↦ (opt ..).bind fun i ↦ (readTable ..).bind fun n ↦ ?_
  exact (opt ..).bind fun j ↦ .ite ((raise ..).bind fun _ ↦ readTable ..) (readTable ..)

theorem ipairsStep : Settles (Base.ipairsStep args) :=
  (check _).bind fun _ ↦ (check _).bind fun _ ↦ (readTable ..).bind fun _ ↦ .pure _

theorem insert : Settles (Sequence.insert args) := by
  refine (check _).bind fun t ↦ (readTable ..).bind fun n ↦ ?_
  refine .ite ((modifyTable ..).bind fun _ ↦ .pure _) (.ite ?_ ((raise ..).bind fun _ ↦ .pure _))
  refine (check _).bind fun pos ↦ ?_
  refine .ite ((argument ..).bind fun _ ↦ ?_) ?_ <;>
    exact .ite ((modifyTable ..).bind fun _ ↦ .pure _) ((modifyTable ..).bind fun _ ↦ .pure _)

theorem remove : Settles (Sequence.remove args) := by
  refine (check _).bind fun t ↦ (readTable ..).bind fun n ↦ .ite (.pure _) ?_
  refine (opt ..).bind fun pos ↦ .ite (.pure _) ?_
  exact (readTable ..).bind fun removed ↦ (modifyTable ..).bind fun _ ↦ .pure _

theorem concat : Settles (Sequence.concat args) := by
  refine (check _).bind fun t ↦ (opt ..).bind fun separator ↦ (opt ..).bind fun i ↦ ?_
  refine (readTable ..).bind fun n ↦ (opt ..).bind fun j ↦ (readTable ..).bind fun joined ↦ ?_
  cases joined with
  | ok s => exact .pure _
  | error k => exact raise ..

theorem sub : Settles (Strings.sub args) :=
  (check _).bind fun _ ↦ (opt ..).bind fun _ ↦ (opt ..).bind fun _ ↦ .pure _

theorem byte : Settles (Strings.byte args) :=
  (check _).bind fun _ ↦ (opt ..).bind fun _ ↦ (opt ..).bind fun _ ↦ .pure _

theorem find : Settles (Strings.find args) := by
  refine (check _).bind fun s ↦ (check _).bind fun needle ↦ (opt ..).bind fun start ↦ ?_
  dsimp only
  split <;> exact .pure _

theorem rep : Settles (Strings.rep args) :=
  (check _).bind fun _ ↦ (check _).bind fun _ ↦
    .ite (.pure _) (.ite ((raise ..).bind fun _ ↦ .pure _) (.pure _))

end Settles

/-! ## All functions -/

namespace Checked

variable {op : Native} {args : Arguments} {s : Session}

end Checked

end LuaEmbed
