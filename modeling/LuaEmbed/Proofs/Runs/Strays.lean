import LuaEmbed.Proofs.Runs.Lockstep
import LuaEmbed.Proofs.Runs.Logic.Evaluation

/-!
# Runs of accepted chunks do not stray

Evaluation says what to do with any tree: with a `break` that leaves a function, an assignment to
what is no place, a statement that is no call, a loop over no names, a function without a name.  No
run comes there if all bodies in the heap are well formed, because then anything may be done there
instead.  The heap of a new machine has such bodies only, and runs keep it so: whatever is loaded is
a chunk that was accepted.
-/

namespace LuaEmbed

/-- All bodies in the heap are well formed. -/
def Machine.WellFormed (m : Machine) : Prop :=
  ∀ (r : Ref) body chunk scope, m.functions[r]? = some (.script body chunk scope) → body.WellFormed

theorem Machine.WellFormed.change {m m' : Machine} {writes : Ref → String → Prop}
    (h : m.WellFormed) (hc : m.Change True writes m') : m'.WellFormed := by
  cases hc with
  | newFunction f hf =>
      intro r body chunk scope hr
      rw [Array.getElem?_push] at hr
      split at hr
      · exact hf _ _ _ (Option.some.inj hr) trivial
      · exact h _ _ _ _ hr
  | _ => exact h

theorem Machine.wellFormed_initial (callLimit : Nat) (input : Input) :
    Machine.WellFormed { Machine.initial callLimit with input } :=
  fun _ _ _ _ h ↦ nomatch h

/-- Evaluation in which something else is done where no well-formed chunk leads to. -/
def Hooks.straying (stray : {α : Type} → Run α → Run α) : Hooks Unit :=
  { Hooks.plain with stray }

namespace Lockstep

/-- All bodies in the heap stay well formed. -/
def bodies : Lockstep where
  toLikeness := .same
  Holds := Machine.WellFormed
  Strict := True
  Writes _ _ := True
  holds_change := Machine.WellFormed.change
  wellFormed h _ := h
  writes_new _ _ := trivial

/-- Two runs in lockstep do the same, and only well-formed bodies are in the heap after them. -/
theorem bodies_runs {α : Type} {r r' : Run α} {P : α → Prop} (h : bodies.Runs none r r' P)
    {s : Session} (hs : s.machine.WellFormed) :
    r s = r' s ∧ (r'.after s).machine.WellFormed := by
  have ho := h s.machine s.world s.world hs rfl
  exact ⟨ho.eq_of_none fun _ _ h ↦ h, ho.holds_of_none⟩

theorem bodies_registers (stop : Option Int) : (bodies.logic stop).Registers :=
  Run.Logic.Agree.registers fun _ _ ↦ trivial

theorem straying_agree (stray : {α : Type} → Run α → Run α) :
    Run.Logic.HooksAgree (fun _ : Unit ↦ (bodies.logic none)) (.straying stray) .plain id id where
  native _ _ fuel _ _ op args hcall :=
    .native (bodies_registers none) (hcall () _) fuel op args (fun _ _ _ ↦ trivial)
      (fun _ ↦ trivial) (fun _ ↦ trivial) fun _ ↦ trivial
  store _ _ _ _ v := .storeRaw (fun _ _ ↦ trivial) v
  stray _ _ _ _ hne _ := (hne trivial).elim

end Lockstep

/-- The tree of an accepted chunk is well formed.  Neither its execution nor the call of any value
comes to where evaluation would stray, on any session in whose heap all bodies are well formed.
A new machine is such, and remains so. -/
theorem accepted_never_strays {name : String} {source : List UInt8} {c : Chunk}
    (h : Chunk.ofBytes name source = .ok c) (stray : {α : Type} → Run α → Run α) (fuel : Nat) :
    c.body.WellFormed ∧
    (∀ callLimit libraries input s,
      ((Program.start callLimit libraries input).after s).machine.WellFormed) ∧
    ∀ s : Session, s.machine.WellFormed →
      (∀ args,
        Hooked.executeBytes (.straying stray) fuel () source name args s =
            Program.executeBytes fuel source name args s ∧
          ((Program.executeBytes fuel source name args).after s).machine.WellFormed) ∧
      ∀ f args called,
        Hooked.call (.straying stray) fuel () f args called s = Program.call fuel f args called s ∧
          ((Program.call fuel f args called).after s).machine.WellFormed := by
  have hh := Lockstep.straying_agree stray
  refine ⟨Chunk.wellFormed_of_ofBytes h, fun callLimit libraries input s ↦ ?_, fun s hs ↦
    ⟨fun args ↦ ?_, fun f args called ↦ ?_⟩⟩
  · have hlibraries : (Lockstep.bodies.logic none).Keeps false
        (if libraries then Library.openAll else pure ()) := by
      split
      · exact .openAll (Lockstep.bodies_registers none) (fun _ _ _ ↦ trivial) trivial
      · apply Run.Logic.Agree.pure
    have hs := Machine.wellFormed_initial callLimit input
    exact (Lockstep.bodies_runs (s := ⟨_, s.world⟩) hlibraries hs).2
  · rw [← Hooked.executeBytes_plain]
    exact Lockstep.bodies_runs
      (hh.executeBytes (fun _ ↦ trivial) () (m := false) fuel source name args) hs
  · have hcall : Program.call fuel = Hooked.call .plain fuel () := (Hooked.unhooked fuel).call.symm
    rw [hcall]
    have hrelated := Run.Logic.related hh (fun _ ↦ trivial) fuel
    exact Lockstep.bodies_runs (hrelated.call () (m := false) f args called) hs

/-- A loop that is left, in a function that takes any number of arguments. -/
theorem accepted_never_strays_loop :
    let source := Text.bytes "local function f(...) while ... do break end return ... end f(1)"
    let s : Session := ⟨Machine.initial 200, World.initial⟩
    (Chunk.ofBytes "loop" source).isOk ∧ s.machine.WellFormed ∧
      Hooked.executeBytes (.straying fun _ ↦ throw (.exit 1)) 50 () source "loop" [] s =
        Program.executeBytes 50 source "loop" [] s := by
  intro source s
  have hs : s.machine.WellFormed := Machine.wellFormed_initial 200 (.ofBytes [])
  have hok : (Chunk.ofBytes "loop" source).isOk := by decide +kernel
  cases hc : Chunk.ofBytes "loop" source with
  | error e => exact nomatch (hc ▸ hok :)
  | ok c => exact ⟨rfl, hs, (((accepted_never_strays hc _ 50).2.2 s hs).1 []).1⟩

end LuaEmbed
