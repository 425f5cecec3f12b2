import LuaEmbed.Library.Sequence
import LuaEmbed.Proofs.Runs.After
import LuaEmbed.Proofs.Tables.Sequences

/-!
# Sorting

A sort compares values, at most as many times as there are pairs of them, and then stores what it
has made of the answers.  Comparisons are runs like any other: they may call scripts, answer as they
please, and fail.  What is made of the answers is a permutation in any case.  If the answers are
those of a strict weak order, it is the sequence that insertion sort gives, so it is sorted, and
what is tied keeps its order.
-/

namespace LuaEmbed.Library.Sequence

/-! ## Runs that make comparisons -/

/-- A comparison that was made, and its answer. -/
structure Answer where
  left : Value
  right : Value
  before : Bool

/-- Comparisons of some values, one after the other, none of which fails. -/
inductive Comparisons (before : Value → Value → Run Bool) (values : List Value) (s : Session) :
    List Answer → Session → Prop
  | nil : Comparisons before values s [] s
  | snoc {answers : List Answer} {s₁ s₂ : Session} {a b : Value} {answer : Bool} :
      Comparisons before values s answers s₁ → a ∈ values → b ∈ values →
        before a b s₁ = .ok answer s₂ →
        Comparisons before values s (answers ++ [⟨a, b, answer⟩]) s₂

/-- The answers are those of a relation. -/
def Follow (lt : Value → Value → Bool) (answers : List Answer) : Prop :=
  ∀ x ∈ answers, x.before = lt x.left x.right

/-- How a run ends that makes at most `m` comparisons and nothing else: with a result that is as the
answers say, or with the first comparison that fails. -/
inductive Outcome {α : Type} (before : Value → Value → Run Bool) (values : List Value) (s : Session)
    (m : Nat) (P : List Answer → α → Prop) : EStateM.Result Abort Session α → Prop
  | ok {answers : List Answer} {s₁ : Session} {a : α} :
      Comparisons before values s answers s₁ → answers.length ≤ m → P answers a →
        Outcome before values s m P (.ok a s₁)
  | error {answers : List Answer} {s₁ s₂ : Session} {v w : Value} {e : Abort} :
      Comparisons before values s answers s₁ → answers.length < m → v ∈ values → w ∈ values →
        before v w s₁ = .error e s₂ → Outcome before values s m P (.error e s₂)

variable {α β : Type} {before : Value → Value → Run Bool} {values : List Value} {s s₁ s₂ : Session}
  {answers answers' : List Answer} {m m' : Nat} {P : List Answer → α → Prop}

theorem Comparisons.trans (h : Comparisons before values s answers s₁)
    (h' : Comparisons before values s₁ answers' s₂) :
    Comparisons before values s (answers ++ answers') s₂ := by
  induction h' with
  | nil => rwa [List.append_nil]
  | snoc _ ha hb hanswer ih =>
      rw [← List.append_assoc]
      exact .snoc ih ha hb hanswer

theorem Follow.of_append {lt : Value → Value → Bool} (h : Follow lt (answers ++ answers')) :
    Follow lt answers ∧ Follow lt answers' := List.forall_mem_append.1 h

/-- The run makes at most `m` comparisons. -/
def Compares (before : Value → Value → Run Bool) (values : List Value) (m : Nat) (r : Run α)
    (P : List Answer → α → Prop) : Prop :=
  ∀ s, Outcome before values s m P (r s)

namespace Compares

theorem pure {a : α} (h : P [] a) : Compares before values m (pure a) P :=
  fun _ ↦ .ok .nil (Nat.zero_le m) h

theorem compare {a b : Value} (ha : a ∈ values) (hb : b ∈ values) :
    Compares before values 1 (before a b) fun answers answer ↦ answers = [⟨a, b, answer⟩] := by
  intro s
  cases hr : before a b s with
  | ok answer s' => exact .ok (.snoc .nil ha hb hr) (Nat.le_refl 1) rfl
  | error e s' => exact .error .nil Nat.zero_lt_one ha hb hr

theorem bind {r : Run α} {f : α → Run β} {Q : List Answer → β → Prop}
    (hr : Compares before values m r P)
    (hf : ∀ answers a, P answers a →
      Compares before values m' (f a) fun answers' ↦ Q (answers ++ answers')) :
    Compares before values (m + m') (r >>= f) Q := by
  intro s
  have ho := hr s
  cases hrs : r s with
  | ok a s₁ =>
      rw [hrs] at ho
      obtain ⟨hmade, hm, ha⟩ := ho
      have ho' := hf _ a ha s₁
      rw [Run.bind_of_ok hrs]
      generalize f a s₁ = o at ho'
      cases ho' with
      | ok hmade' hm' hb => exact .ok (hmade.trans hmade') (by simp; omega) hb
      | error hmade' hm' hv hw he => exact .error (hmade.trans hmade') (by simp; omega) hv hw he
  | error e s₁ =>
      rw [hrs] at ho
      obtain ⟨⟩ | ⟨hmade, hm, hv, hw, he⟩ := ho
      rw [Run.bind_of_error hrs]
      exact .error hmade (Nat.lt_add_right m' hm) hv hw he

theorem mono {r : Run α} {P' : List Answer → α → Prop} (h : Compares before values m r P)
    (hm : m ≤ m') (hP : ∀ answers a, P answers a → P' answers a) :
    Compares before values m' r P' := by
  intro s
  have ho := h s
  generalize r s = o at ho
  cases ho with
  | ok hmade hle ha => exact .ok hmade (hle.trans hm) (hP _ _ ha)
  | error hmade hlt hv hw he => exact .error hmade (hlt.trans_le hm) hv hw he

end Compares

/-! ## Insertion -/

/-- A value stays before another in descending order. -/
def NotLess (lt : Value → Value → Bool) (a b : Value) : Prop := lt a b = false

instance (lt : Value → Value → Bool) : DecidableRel (NotLess lt) :=
  fun a b ↦ inferInstanceAs (Decidable (lt a b = false))

/-- Neither value is before the other. -/
def tied (lt : Value → Value → Bool) (a b : Value) : Bool := !lt a b && !lt b a

/-- The relation is a strict weak order on some values. -/
structure StrictWeakOrder (lt : Value → Value → Bool) (values : List Value) : Prop where
  irrefl : ∀ a ∈ values, lt a a = false
  trans : ∀ a ∈ values, ∀ b ∈ values, ∀ c ∈ values, lt a b = true → lt b c = true → lt a c = true
  tied_trans : ∀ a ∈ values, ∀ b ∈ values, ∀ c ∈ values,
    tied lt a b = true → tied lt b c = true → tied lt a c = true

/-- What insertion sort makes of values, in ascending order. -/
def sorted (lt : Value → Value → Bool) (values : List Value) : List Value :=
  (values.reverse.insertionSort (NotLess lt)).reverse

namespace StrictWeakOrder

variable {lt : Value → Value → Bool} {a b c : Value} (h : StrictWeakOrder lt values)

include h

theorem mono {values' : List Value} (hsubset : values' ⊆ values) : StrictWeakOrder lt values' where
  irrefl a ha := h.irrefl a (hsubset ha)
  trans a ha b hb c hc := h.trans a (hsubset ha) b (hsubset hb) c (hsubset hc)
  tied_trans a ha b hb c hc := h.tied_trans a (hsubset ha) b (hsubset hb) c (hsubset hc)

end StrictWeakOrder

/-- The order of numbers, and that of strings. -/
def less : Value → Value → Bool
  | .number x, .number y => x < y
  | .string x, .string y => x < y
  | _, _ => false

/-- The values are numbers without NaN, or they are strings. -/
def Ordered (values : List Value) : Prop :=
  (∀ v ∈ values, ∃ x, v = .number x ∧ x.isNaN = false) ∨ ∀ v ∈ values, ∃ x, v = .string x

/-- The order of the language answers at once on such values. -/
theorem Ordered.order_eq (h : Ordered values) (call : Caller) {a b : Value} (ha : a ∈ values)
    (hb : b ∈ values) : order call none a b = pure (less a b) := by
  rcases h with h | h
  · obtain ⟨x, rfl, -⟩ := h a ha
    obtain ⟨y, rfl, -⟩ := h b hb
    rfl
  · obtain ⟨x, rfl⟩ := h a ha
    obtain ⟨y, rfl⟩ := h b hb
    rfl

/-! ## Whole sorts -/

section Whole

variable {call : Caller} {args : Arguments} {compare : Option Ref} {r : Ref} {t : Table}

/-- A table holds some values under the keys of the sequence part of another, and is the same as
that otherwise. -/
structure Rearranged (t t' : Table) (values : List Value) : Prop where
  slice : t'.slice 1 t.length = values
  others : ∀ key, (∀ i < t.length, key.rawEqual (.number (Table.intKey (i + 1))) = false) →
    t'.get key = t.get key
  names : t'.names = t.names
  metatable : t'.metatable = t.metatable

theorem Rearranged.refl (t : Table) : Rearranged t t (t.slice 1 t.length) :=
  ⟨rfl, fun _ _ ↦ rfl, rfl, rfl⟩

theorem Rearranged.setFrom {vs : List Value} (hsize : t.toList.length < 2 ^ 53)
    (hlength : vs.length = t.length) : Rearranged t (t.setFrom 1 vs) vs where
  slice := by
    have := t.length_lt hsize
    rw [← hlength]
    exact Table.slice_setFrom (by omega)
  others key hkey := by
    unfold Table.get
    split
    · next k hk =>
      refine Table.getKey_setFrom_of_ne fun j hj heq ↦ ?_
      rw [Nat.add_comm 1 j] at heq
      exact Table.notMem_firstKeys hk hkey (Table.mem_firstKeys.2 ⟨j, hlength ▸ hj, heq⟩)
    · rfl
  names := by
    refine Table.names_setFrom fun j hj ↦ Table.index_ne_none_of_getInt ?_
    rw [Nat.add_comm 1 j]
    exact t.getInt_ne_nil_of_lt_length (hlength ▸ hj)
  metatable := Table.metatable_setFrom ..

/-- The place of the heap holds the table, perhaps with another metatable. -/
def Holds (s : Session) (r : Ref) (t : Table) : Prop :=
  ∃ metatable, s.machine.tables[r]? = some { t with metatable }

/-- No comparison that the sort may come to assigns to the table. -/
def Keeps (before : Value → Value → Run Bool) (values : List Value) (s : Session) (r : Ref) :
    Prop :=
  ∀ answers s₁, Comparisons before values s answers s₁ → ∀ a ∈ values, ∀ b ∈ values,
    ∀ t, Holds s₁ r t → Holds ((before a b).after s₁) r t

/-- No comparison that the sort may come to changes the table, or its metatable. -/
def Leaves (before : Value → Value → Run Bool) (values : List Value) (s : Session) (r : Ref) :
    Prop :=
  ∀ answers s₁, Comparisons before values s answers s₁ → ∀ a ∈ values, ∀ b ∈ values,
    ((before a b).after s₁).machine.tables[r]? = s₁.machine.tables[r]?

theorem Leaves.keeps (h : Leaves before values s r) : Keeps before values s r := by
  intro answers s₁ hmade a ha b hb t ht
  rwa [Holds, h answers s₁ hmade a ha b hb]

theorem Comparisons.table_eq (h : Comparisons before values s answers s₁)
    (hleaves : Leaves before values s r) : s₁.machine.tables[r]? = s.machine.tables[r]? := by
  induction h with
  | nil => rfl
  | snoc h ha hb hanswer ih =>
      rw [← ih, ← hleaves _ _ h _ ha _ hb, Run.after_of_ok hanswer]

theorem Ordered.leaves (h : Ordered values) (call : Caller) (s : Session) (r : Ref) :
    Leaves (order call none) values s r := by
  intro answers s₁ _ a ha b hb
  rw [h.order_eq call ha hb]
  rfl

end Whole

end LuaEmbed.Library.Sequence
