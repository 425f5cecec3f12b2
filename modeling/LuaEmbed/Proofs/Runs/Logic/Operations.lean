import LuaEmbed.Proofs.Runs.Logic

/-!
# Operations in a logic of runs

The operations on values, with all metamethods they lead to, the look-up of modules, and loading:
what two callers do there is related if their calls are.
-/

namespace LuaEmbed.Run.Logic

variable {L : Run.Logic} {m : Bool} {α : Type} {call call' : Caller}

/-- The records of the host can be looked up, and created where they are missing. -/
structure Registers (L : Run.Logic) : Prop where
  loaded {m : Bool} : L.Keeps m Module.loaded
  ofType {m : Bool} (name : String) : L.Keeps m (Metatable.ofType name)

namespace Agree

/-! ## Metatables -/

@[grind ←] theorem metatable (v : Value) : L.Keeps m (Metatable.of v) := machine _

@[grind ←] theorem attach (ha : L.Attaches) (v : Value) (mt : Option Ref) :
    L.Keeps m (Metatable.attach v mt) := by
  unfold Metatable.attach
  split
  · exact L.modifyTable (fun _ _ ↦ .inr rfl) (.inl ha)
  · apply modifyUserdata
  · apply here

@[grind ←] theorem metaField (v : Value) (event : String) : L.Keeps m (Metatable.field v event) :=
  machine _

@[grind ←] theorem lookup (v : Value) (event : String) : L.Keeps m (Metatable.lookup v event) :=
  machine _

@[grind ←] theorem callField (hcall : L.Callers m call call') (v : Value) (event : String) :
    L.Agree m (Metatable.callField call v event) (Metatable.callField call' v event) := by
  refine (metaField v event).bind fun h ↦ ?_
  split
  · exact (hcall ..).bind fun _ ↦ .pure _
  · apply pure

theorem registered (name : String) : L.Keeps m (Metatable.registered name) :=
  (machine _).bind fun _ ↦ getStr ..

@[grind ←] theorem newTypedUserdata (hreg : L.Registers) (payload : Payload)
    (type : Option String) : L.Keeps m (Metatable.newUserdata payload type) := by
  unfold Metatable.newUserdata
  split
  · exact (hreg.ofType _).bind fun _ ↦ newUserdata _
  · apply newUserdata

/-! ## Modules -/

@[grind ←] theorem moduleField (hreg : L.Registers) (name field : String) :
    L.Keeps m (Module.fieldOf name field) := by
  refine hreg.loaded.bind fun loaded ↦ (getStr ..).bind fun module ↦ ?_
  split
  · apply getStr
  · apply pure

/-- Names are followed, and the tables that are missing are created. -/
theorem findAlong {names : List String} (hw : ∀ r, ∀ name ∈ names, L.Writes r name) (v : Value) :
    L.Keeps m (Module.findAlong v names) := by
  induction names generalizing v with
  | nil => cases v <;> apply pure
  | cons name names ih =>
      have ih := ih fun r name hname ↦ hw r name (List.mem_cons_of_mem _ hname)
      have hwrites (r : Ref) := hw r name List.mem_cons_self
      cases v with
      | table r =>
          refine (getStr r name).bind fun found ↦ ?_
          split
          · exact newTable_bind fun _ _ ↦ (setStr (hwrites _) _).bind fun _ ↦ ih _
          · apply ih
          · apply pure
      | _ => apply pure

/-- Where everything may be written, records of the host can be created. -/
theorem registers (hw : ∀ r s, L.Writes r s) : L.Registers where
  loaded := by
    refine (machine _).bind fun registry ↦ (findAlong (fun r name _ ↦ hw r name) _).bind
      fun found ↦ ?_
    split
    · apply pure
    · exact newTable_bind fun _ _ ↦ (setStr (hw ..) _).bind fun _ ↦ .pure _
  ofType name := by
    refine (machine _).bind fun registry ↦ (getStr ..).bind fun found ↦ ?_
    split
    · apply pure
    · exact newTable_bind fun _ _ ↦ (setStr (hw ..) _).bind fun _ ↦ .pure _

/-! ## Loading -/

/-- A source becomes a well-formed function. -/
@[grind ←] theorem loadBytes (source : List UInt8) (chunk : String) :
    L.Keeps m (Loader.ofBytes source chunk) := by
  unfold Loader.ofBytes
  split
  · next c hc => exact L.newScript (fun _ ↦ Chunk.wellFormed_of_ofBytes hc) (.inl rfl) _
  · apply fail

@[grind ←] theorem loadFile (path : String) : L.Keeps m (Loader.ofFile path) := by
  unfold Loader.ofFile Loader.unreadable
  split
  · refine (machine _).bind fun input ↦ ?_
    refine (setInput input.drain.2).bind fun _ ↦ ?_
    split
    · apply loadBytes
    · apply fail
  · refine bind (L.files fun files ↦ files.readFile path) fun content ↦ ?_
    split
    · apply loadBytes
    · apply fail

/-! ## Operations -/

@[grind ←] theorem isCallable (v : Value) : L.Keeps m (Operation.isCallable v) := by
  unfold Operation.isCallable
  split
  · apply pure
  · exact (metaField ..).bind fun _ ↦ .pure _

@[grind ←] theorem first (hcall : L.Callers m call call') (handler : Value) (args : List Value) :
    L.Agree m (Operation.first call handler args) (Operation.first call' handler args) :=
  (hcall ..).bind fun _ ↦ .pure _

@[grind ←] theorem eitherHandler (a b : Value) (event : String) :
    L.Keeps m (Operation.eitherHandler a b event) := by
  unfold Operation.eitherHandler
  grind -funext

@[grind ←] theorem sharedHandler (a b : Value) (event : String) :
    L.Keeps m (Operation.sharedHandler a b event) := by
  unfold Operation.sharedHandler
  grind -funext

@[grind ←] theorem index (hcall : L.Callers m call call') (v key : Value) :
    L.Agree m (Operation.index call v key) (Operation.index call' v key) := by
  suffices h : ∀ n v, L.Agree m (Operation.indexWithin call key n v)
      (Operation.indexWithin call' key n v) from h _ _
  intro n
  induction n with
  | zero => exact fun v ↦ here _
  | succ n ih =>
      intro v
      unfold Operation.indexWithin
      grind -funext

@[grind ←] theorem arithmetic (hcall : L.Callers m call call') (op : ArithmeticOp) (a b : Value) :
    L.Agree m (Operation.arithmetic call op a b) (Operation.arithmetic call' op a b) := by
  unfold Operation.arithmetic
  grind -funext

@[grind ←] theorem negate (hcall : L.Callers m call call') (v : Value) :
    L.Agree m (Operation.negate call v) (Operation.negate call' v) := by
  unfold Operation.negate
  grind -funext

@[grind ←] theorem concat (hcall : L.Callers m call call') (a b : Value) :
    L.Agree m (Operation.concat call a b) (Operation.concat call' a b) := by
  unfold Operation.concat
  grind -funext

@[grind ←] theorem lengthOf (hcall : L.Callers m call call') (v : Value) :
    L.Agree m (Operation.length call v) (Operation.length call' v) := by
  unfold Operation.length
  grind -funext

@[grind ←] theorem equals (hcall : L.Callers m call call') (a b : Value) :
    L.Agree m (Operation.equals call a b) (Operation.equals call' a b) := by
  unfold Operation.equals
  grind -funext

@[grind ←] theorem lessThan (hcall : L.Callers m call call') (a b : Value) :
    L.Agree m (Operation.lessThan call a b) (Operation.lessThan call' a b) := by
  unfold Operation.lessThan
  grind -funext

@[grind ←] theorem lessEqual (hcall : L.Callers m call call') (a b : Value) :
    L.Agree m (Operation.lessEqual call a b) (Operation.lessEqual call' a b) := by
  unfold Operation.lessEqual
  grind -funext

@[grind ←] theorem tostring (hcall : L.Callers m call call') (v : Value) :
    L.Agree m (Operation.tostring call v) (Operation.tostring call' v) := by
  unfold Operation.tostring
  grind -funext

end Agree

end LuaEmbed.Run.Logic
