import LuaEmbed.Machine.Arguments
import LuaEmbed.Proofs.Runs.After

/-!
# Arguments and outcomes

How a host function reads an argument does not depend on the session, and what it reads is of the
type of the host that it asks for.  Reading an argument, like everything else that most of these
functions do, ends with a result or a fault.
-/

namespace LuaEmbed

/-! ## Reading arguments -/

namespace Number

theorem toIntWithin_mem {low high : Int} (hl : low ≤ 0) (hh : 0 ≤ high) (x : Float) :
    low ≤ toIntWithin low high x ∧ toIntWithin low high x ≤ high := by
  have hrange : low ≤ high := Int.le_trans hl hh
  rw [toIntWithin]
  cases dyadic? x with
  | some y => exact ⟨le_clamp hrange, clamp_le hrange⟩
  | none =>
      cases hnan : x.isNaN
      · cases hnegative : isNegative x
        · simpa [hnan, hnegative] using hrange
        · simpa [hnan, hnegative] using hrange
      · simpa [hnan] using ⟨hl, hh⟩

theorem toInt64_mem (x : Float) : int64Min ≤ toInt64 x ∧ toInt64 x ≤ int64Max :=
  toIntWithin_mem (by decide) (by decide) x

end Number

section Reads

variable {α β : Type} {P : α → Prop} {r : Run α} {f g : α → Run β} {s : Session}

/-- A run that looks at arguments only: it has the same result on all sessions, or is a report. -/
def Reads (P : α → Prop) (r : Run α) : Prop :=
  (∃ a, P a ∧ r = pure a) ∨ ∀ s, ∃ e, r s = .error (.fault e) s

theorem Reads.bind_congr (hr : Reads P r) (h : ∀ a, P a → r = pure a → f a s = g a s) :
    (r >>= f) s = (r >>= g) s := by
  rcases hr with ⟨a, ha, hpure⟩ | hreport
  · rw [hpure, pure_bind, pure_bind]
    exact h a ha hpure
  · obtain ⟨e, he⟩ := hreport s
    rw [Run.bind_of_error he, Run.bind_of_error he]

/-- What is read on a session leaves the session as it is. -/
theorem Reads.cases_at (hr : Reads P r) (s : Session) :
    (∃ a, P a ∧ r s = .ok a s) ∨ ∃ e, r s = .error (.fault e) s := by
  rcases hr with ⟨a, ha, rfl⟩ | hreport
  · exact .inl ⟨a, ha, rfl⟩
  · exact .inr (hreport s)

end Reads

namespace Arguments

variable {args : Arguments} {n : Nat} {α : Type} {e : Extractor α} {a default : α} {v : Value}
  {i : Int}

theorem check_of_get? (h : e.get? (args.arg n) = some a) : args.check e n = pure a := by
  rw [check, extract, h]

theorem check_table {r : Ref} (h : args.arg n = .table r) : args.check .table n = pure r :=
  check_of_get? (by rw [h]; rfl)

theorem check_string {x : String} (h : args.arg n = .string x) : args.check .string n = pure x :=
  check_of_get? (by rw [h]; rfl)

theorem reads_check : Reads (fun a ↦ e.get? (args.arg n) = some a) (args.check e n) := by
  cases h : e.get? (args.arg n) with
  | some a => exact .inl ⟨a, rfl, check_of_get? h⟩
  | none =>
      refine .inr fun s ↦ ?_
      rw [check, extract, h]
      exact ⟨_, rfl⟩

theorem reads_opt :
    Reads (fun a ↦ a = default ∨ e.get? (args.arg n) = some a) (args.opt e n default) := by
  rw [opt]
  split
  · exact .inl ⟨default, .inl rfl, rfl⟩
  · exact reads_check.imp_left fun ⟨a, ha, hpure⟩ ↦ ⟨a, .inr ha, hpure⟩

theorem reads_opt? :
    Reads (fun a ↦ a = none ∨ ∃ b, a = some b ∧ e.get? (args.arg n) = some b) (args.opt? e n) := by
  rw [opt?]
  split
  · exact .inl ⟨none, .inl rfl, rfl⟩
  · rcases (reads_check : Reads _ (args.check e n)) with ⟨a, ha, hpure⟩ | hreport
    · exact .inl ⟨some a, .inr ⟨a, rfl, ha⟩, by rw [hpure, map_pure]⟩
    · refine .inr fun s ↦ ?_
      obtain ⟨f, hf⟩ := hreport s
      exact ⟨f, Run.bind_of_error hf⟩

theorem reads_checkKinds (kinds : List Kind) :
    Reads (fun _ ↦ kinds.contains (args.arg n).kind = true) (args.checkKinds n kinds) := by
  rw [checkKinds]
  split
  · next h => exact .inl ⟨(), h, rfl⟩
  · exact .inr fun s ↦ ⟨_, rfl⟩

theorem get?_integer_mem (h : Extractor.integer.get? v = some i) :
    Number.int64Min ≤ i ∧ i ≤ Number.int64Max := by
  cases v with
  | number x =>
      cases h
      exact Number.toInt64_mem x
  | _ => exact nomatch h

theorem opt_integer_mem {default : Int}
    (h : i = default ∨ Extractor.integer.get? (args.arg n) = some i)
    (hl : Number.int64Min ≤ default) (hh : default ≤ Number.int64Max) :
    Number.int64Min ≤ i ∧ i ≤ Number.int64Max := by
  rcases h with rfl | h
  · exact ⟨hl, hh⟩
  · exact get?_integer_mem h

theorem get?_table {r : Ref} (h : Extractor.table.get? v = some r) : v = .table r := by
  cases v with
  | table r =>
      cases h
      rfl
  | _ => exact nomatch h

theorem get?_string {x : String} (h : Extractor.string.get? v = some x) : v = .string x := by
  cases v with
  | string x =>
      cases h
      rfl
  | _ => exact nomatch h

end Arguments

/-! ## Results and faults -/

section Settles

variable {α β : Type} {P : α → Prop} {r : Run α} {f : α → Run β}

/-- A run that ends with a result or a fault on every session. -/
structure Settles (r : Run α) : Prop where
  outcome : ∀ s, (∃ a s', r s = .ok a s') ∨ ∃ e s', r s = .error (.fault e) s'

namespace Settles

theorem of_ok (h : ∀ s, ∃ a s', r s = .ok a s') : Settles r := ⟨fun s ↦ .inl (h s)⟩

theorem pure (a : α) : Settles (pure a) := of_ok fun s ↦ ⟨a, s, rfl⟩

theorem bind (hr : Settles r) (hf : ∀ a, Settles (f a)) : Settles (r >>= f) := by
  refine ⟨fun s ↦ ?_⟩
  rcases hr.outcome s with ⟨a, s', ha⟩ | ⟨e, s', he⟩
  · rw [Run.bind_of_ok ha]
    exact (hf a).outcome s'
  · exact .inr ⟨e, s', Run.bind_of_error he⟩

theorem ite {c : Prop} [Decidable c] {r' : Run α} (hr : Settles r) (hr' : Settles r') :
    Settles (if c then r else r') := by
  split
  · exact hr
  · exact hr'

theorem raise (kind : FaultKind) (p : Problem) : Settles (Report.raise kind p : Run α) :=
  ⟨fun s ↦ .inr ⟨_, s, rfl⟩⟩

theorem argument (kind : FaultKind) (n : Nat) (p : ArgumentProblem) :
    Settles (Report.argument kind n p : Run α) := ⟨fun s ↦ .inr ⟨_, s, rfl⟩⟩

theorem readTable (r : Ref) (f : Table → α) : Settles (Heap.readTable r f) :=
  of_ok fun s ↦ ⟨_, s, rfl⟩

theorem modifyTable (r : Ref) (f : Table → Table) : Settles (Heap.modifyTable r f) :=
  of_ok fun _ ↦ ⟨_, _, rfl⟩

theorem of_reads (hr : Reads P r) : Settles r := by
  rcases hr with ⟨a, -, rfl⟩ | hreport
  · exact .pure a
  · refine ⟨fun s ↦ ?_⟩
    obtain ⟨e, he⟩ := hreport s
    exact .inr ⟨e, s, he⟩

variable {args : Arguments} {n : Nat}

theorem check (e : Extractor α) : Settles (args.check e n) := of_reads Arguments.reads_check

theorem opt (e : Extractor α) (default : α) : Settles (args.opt e n default) :=
  of_reads Arguments.reads_opt

end Settles

end Settles

end LuaEmbed
