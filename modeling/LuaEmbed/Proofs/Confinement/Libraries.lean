import LuaEmbed.Proofs.Confinement.Runs
import LuaEmbed.Proofs.Runs.Logic.Libraries

/-!
# The libraries do not get hold of tables

A native function that is called by the scripts has its arguments, and what the machine holds.
None of them makes a reference to a table out of anything else.
-/

namespace LuaEmbed.Run.Confined

open Library
open Refers (avoids)

variable {r : Ref} {call : LuaEmbed.Caller} {args : Arguments}

/-! ## Loading -/

@[grind ←] theorem loadBytes (source : List UInt8) (chunk : String) :
    Confined r (Loader.ofBytes source chunk) := by
  unfold Loader.ofBytes
  split
  · exact ConfinedTo.newFunction _ fun _ ↦ nofun
  · exact fail nofun

@[grind ←] theorem input : Confined r (Run.machine Machine.input) :=
  ConfinedTo.machine (fun _ _ ↦ trivial) fun _ _ _ ↦ rfl

theorem setInput (input : Input) :
    Confined r (Run.modifyMachine fun machine ↦ { machine with input }) :=
  ConfinedTo.modifyMachine (fun _ hs ↦ { hs with }) (fun _ _ _ ↦ rfl) trivial

/-- What the machine holds besides tables is no reference. -/
theorem machine_nothing {α : Type} (f : Machine → α)
    (hput : ∀ (s : Session) t, f (s.put r t).machine = f s.machine) :
    @Confined α Refers.nothing r (Run.machine f) :=
  ConfinedTo.machine (fun _ _ ↦ trivial) fun s t _ ↦ hput s t

/-- What is found in the surroundings is no reference. -/
theorem world_bind {α β : Type} [Refers β] {f : World → α} {g : α → Run β}
    (hg : ∀ a, Confined r (g a)) : Confined r (Run.world f >>= g) :=
  ConfinedTo.bind (P := fun _ ↦ True) (.world f fun _ ↦ trivial) fun a _ ↦ hg a

@[grind ←] theorem loadFile (path : String) : Confined r (Loader.ofFile path) := by
  unfold Loader.ofFile Loader.unreadable
  split
  · refine input.bind fun input _ ↦ (setInput input.drain.2).bind fun _ _ ↦ ?_
    split
    · apply loadBytes
    · exact fail nofun
  · refine world_bind fun content ↦ ?_
    split
    · apply loadBytes
    · exact fail nofun

/-! ## The base library -/

section Base

theorem base_next (hargs : avoids r args) : Confined r (Base.next args) := by
  refine checkTable_bind hargs fun t ht ↦ ?_
  refine (readTable ht fun t ht ↦ Table.avoids_next? ht _).bind fun outcome houtcome ↦ ?_
  split <;> grind -funext

theorem base_error (hargs : avoids r args) : Confined r (Base.error args) := by
  refine (opt ..).bind fun level _ ↦ ?_
  have hv := Refers.avoids_arg 1 hargs
  split
  · split
    · refine (location _).bind fun position _ ↦ ?_
      split
      · exact (fail (α := PUnit) (f := .raised (.string _)) (by exact nofun)).bind fun _ _ ↦ fail hv
      · exact fail hv
    · exact fail hv
  · exact fail hv

theorem base_tonumber (hargs : avoids r args) : Confined r (Base.tonumber args) := by
  refine (opt ..).bind fun base _ ↦ ?_
  have hnumber (n? : Option Float) : avoids r [(n?.map Value.number).getD .nil] := by
    cases n? <;> grind
  split
  · exact (checkAny hargs 1).bind fun v _ ↦ pure (hnumber _)
  · refine whenFirst (argument ..) fun _ ↦ (check ..).bind fun s _ ↦ ?_
    grind -funext

theorem base_texts (hcall : Caller r call) (reversed : List String) {vs : List Value}
    (hvs : avoids r vs) : Confined r (Base.texts call reversed vs) := by
  induction vs generalizing reversed with
  | nil => exact pure fun _ _ ↦ trivial
  | cons v vs ih =>
      obtain ⟨hv, hvs⟩ := Refers.avoids_cons.1 hvs
      exact (tostring hcall hv).bind fun s _ ↦ ih _ hvs

@[grind ←] theorem base_print (hcall : Caller r call) (hargs : avoids r args) :
    Confined r (Base.print call args) :=
  (base_texts hcall [] hargs).bind fun _ _ ↦ (modifyWorld _).bind fun _ _ ↦ pure (by grind)

@[grind ←] theorem base_pcall (hcall : Caller r call) (hargs : avoids r args) :
    Confined r (Base.pcall call args) := by
  refine (checkAny hargs 1).bind fun f hf ↦ ?_
  refine (hcall _ _ _ hf (Refers.avoids_tail hargs)).protect.attempt.bind fun outcome houtcome ↦ ?_
  split <;> exact pure (by grind)

@[grind ←] theorem base_xpcall (hcall : Caller r call) (hargs : avoids r args) :
    Confined r (Base.xpcall call args) := by
  refine (checkAny hargs 1).bind fun f hf ↦ (checkAny hargs 2).bind fun handler hhandler ↦ ?_
  refine (hcall _ _ _ hf (by grind)).protect.attempt.bind fun outcome houtcome ↦ ?_
  split
  · exact pure (by grind)
  · refine (hcall _ _ _ hhandler (by grind)).bind fun handled hhandled ↦ pure ?_
    grind

@[grind ←] theorem base_loaded {load : Run Value} (h : Confined r load) :
    Confined r (Base.loaded load) := by
  refine h.attempt.bind fun outcome houtcome ↦ ?_
  split <;> exact pure (by grind)

@[grind ←] theorem base_readPieces (hcall : Caller r call) {reader : Value}
    (hreader : avoids r reader) (fuel : Nat) (text : String) :
    Confined r (Base.readPieces call reader fuel text) := by
  induction fuel generalizing text with
  | zero => exact outOfFuel
  | succ fuel ih =>
      refine (hcall _ _ _ hreader (by grind)).bind fun results _ ↦ ?_
      split
      · exact pure fun _ _ ↦ trivial
      · split
        · exact pure fun _ _ ↦ trivial
        · apply ih
      · exact pure (by grind)

theorem base_load (hcall : Caller r call) (fuel : Nat) (args : Arguments) :
    Confined r (Base.load fuel call args) := by
  refine (opt ..).bind fun chunk _ ↦ ?_
  split
  · exact base_loaded (loadBytes ..)
  · refine (base_readPieces hcall (by exact nofun) ..).bind fun text _ ↦ ?_
    split
    · exact base_loaded (loadBytes ..)
    · exact pure (by grind)
  · apply argument

theorem base_rawset (hargs : avoids r args) : Confined r (Base.rawset args) := by
  refine checkTable_bind hargs fun t ht ↦ (checkAny hargs 2).bind fun k hk ↦ ?_
  refine (checkAny hargs 3).bind fun v hv ↦ (set ht hk hv).bind fun outcome _ ↦ ?_
  split
  · exact pure (by grind)
  · apply raise

theorem base_setmetatable (hargs : avoids r args) : Confined r (Base.setmetatable args) := by
  refine checkTable_bind hargs fun t ht ↦ (checkKinds ..).bind fun _ _ ↦ ?_
  have ht := Refers.avoids_table.2 ht
  refine (field ht _).bind fun field _ ↦ whenFirst (raise ..) fun _ ↦ ?_
  exact optTable_bind hargs fun mt hmt ↦ (attach ht hmt).bind fun _ _ ↦ pure (by grind)

/-- The functions of the global table. -/
theorem base (hcall : Caller r call) (hargs : avoids r args) (fuel : Nat) (f : BaseFunction) :
    Confined r (Base.run fuel call f args) := by
  cases f with
  | next => exact base_next hargs
  | error => exact base_error hargs
  | setmetatable => exact base_setmetatable hargs
  | tonumber => exact base_tonumber hargs
  | rawset => exact base_rawset hargs
  | getmetatable =>
      refine (checkAny hargs 1).bind fun v hv ↦ metatable_bind hv fun mt? hmt ↦ ?_
      split
      · exact pure (by grind)
      · next mt =>
        have hmt : mt ≠ r := fun heq ↦ hmt (congrArg some heq)
        refine (getStr hmt _).bind fun protection hprotection ↦ pure ?_
        exact Refers.avoids_singleton.2 (Refers.avoids_ite (Refers.avoids_table.2 hmt) hprotection)
  | load => exact base_load hcall fuel args
  | dofile =>
      exact (opt ..).bind fun path _ ↦ (loadFile path).bind fun f hf ↦ hcall _ _ _ hf (by grind)
  | _ =>
      simp only [Base.run]
      grind -funext [Base.assert, Base.ipairs, Base.ipairsStep, Base.pairs, Base.select,
        Base.rawget, Base.rawequal, Base.unpack, Base.loadstring, Base.loadfile]

end Base

/-! ## The package library -/

section Package

theorem package_search (hcall : Caller r call) {loaders : Ref} (hloaders : loaders ≠ r)
    (name : String) (fuel : Nat) (i : Int) (tried : String) :
    Confined r (Package.search call loaders name fuel i tried) := by
  induction fuel generalizing i tried with
  | zero => exact outOfFuel
  | succ fuel ih =>
      refine (getInt hloaders i).bind fun searcher hsearcher ↦ whenFirst (raise ..) fun _ ↦ ?_
      refine (hcall _ _ _ hsearcher (by grind)).bind fun results _ ↦ ?_
      split
      · exact pure (by grind)
      · apply ih
      · apply ih

theorem package_require (hcall : Caller r call) (fuel : Nat) (args : Arguments) :
    Confined r (Package.require fuel call args) := by
  refine (check ..).bind fun name _ ↦ ConfinedTo.bind loaded fun loaded hloaded ↦ ?_
  refine (getStr hloaded name).bind fun existing hexisting ↦ ?_
  split
  · exact pure (by grind)
  · refine (moduleField ..).bind fun loaders hloaders ↦ ?_
    split
    · have hloaders := Refers.avoids_table.1 hloaders
      refine (package_search hcall hloaders ..).bind fun loader hloader ↦ ?_
      refine (hcall _ _ _ hloader (by grind)).bind fun results hresults ↦ ?_
      have hresult := Refers.avoids_headD hresults
      refine whenFirst (setStr hloaded name hresult) fun _ ↦ ?_
      refine (getStr hloaded name).bind fun module hmodule ↦ ?_
      split
      · exact pure (by grind)
      · exact (setStr hloaded name (by exact nofun)).bind fun _ _ ↦ pure (by grind)
    · apply raise

theorem package_loadFirst (name : String) (files : List String) (tried : String) :
    Confined r (Package.loadFirst name files tried) := by
  induction files generalizing tried with
  | nil => exact pure (by grind)
  | cons file files ih =>
      refine world_bind fun isFile ↦ ?_
      split
      · refine (loadFile file).attempt.bind fun outcome houtcome ↦ ?_
        split
        · exact pure (by grind)
        · apply raise
      · apply ih

theorem package_seeall (hargs : avoids r args) : Confined r (Package.seeall args) := by
  have hset {module mt : Ref} (hmodule : module ≠ r) (hmt : mt ≠ r) : Confined r (do
      Heap.setStr mt "__index" (.table (← Run.machine Machine.globals))
      Metatable.attach (.table module) (some mt)
      return ([] : List Value)) := by
    refine ConfinedTo.bind globals fun globals hglobals ↦ ?_
    refine (setStr hmt _ (Refers.avoids_table.2 hglobals)).bind fun _ _ ↦ ?_
    exact (attach (Refers.avoids_table.2 hmodule) fun heq ↦ hmt (Option.some.inj heq)).bind
      fun _ _ ↦ pure (by grind)
  refine checkTable_bind hargs fun module hmodule ↦ ?_
  refine metatable_bind (Refers.avoids_table.2 hmodule) fun mt? hmt ↦ ?_
  split
  · rw [pure_bind]
    exact hset hmodule fun heq ↦ hmt (congrArg some heq)
  · exact newTable_bind fun mt hmt ↦ hset hmodule hmt

/-- The functions that find and load modules. -/
theorem package (hcall : Caller r call) (hargs : avoids r args) (fuel : Nat)
    (f : PackageFunction) : Confined r (Package.run fuel call f args) := by
  cases f with
  | require => exact package_require hcall fuel args
  | seeall => exact package_seeall hargs
  | fileSearcher =>
      refine (check ..).bind fun name _ ↦ (moduleField ..).bind fun path _ ↦ ?_
      split
      · apply package_loadFirst
      · apply raise
  | preloadSearcher =>
      refine (check ..).bind fun name _ ↦ (moduleField ..).bind fun preload hpreload ↦ ?_
      split
      · refine (getStr (Refers.avoids_table.1 hpreload) name).bind fun f hf ↦ ?_
        split <;> exact pure (by grind)
      · apply raise

end Package

/-! ## Files -/

section Files

@[grind ←] theorem files_newHandle (h : FileHandle) : Confined r (Files.newHandle h) :=
  newTypedUserdata ..

@[grind ←] theorem files_handle? (q : Ref) : Confined r (Files.handle? q) := by
  refine (userdata? q).bind fun u _ ↦ ?_
  split <;> exact pure fun _ _ ↦ trivial

@[grind ←] theorem files_setHandle (q : Ref) (h : FileHandle) :
    Confined r (Files.setHandle q h) :=
  modifyUserdata q fun _ hu ↦ hu

@[grind ←] theorem files_checkHandle (args : Arguments) (n : Nat) :
    Confined r (Files.checkHandle args n) := by
  unfold Files.checkHandle
  split
  · refine (files_handle? _).bind fun h _ ↦ ?_
    split
    · apply raise
    · exact pure ⟨trivial, trivial⟩
    · apply mismatch
  · apply mismatch

@[grind ←] theorem files_shownHandle? (name : String) :
    Confined r (Files.shownHandle? name) := by
  refine (moduleField ..).bind fun v _ ↦ ?_
  split <;> exact pure fun _ _ ↦ trivial

@[grind ←] theorem files_checkFormats (args : Arguments) (n : Nat) :
    Confined r (Files.checkFormats args n) := by
  have hformats (vs : List Value) (n : Nat) : Confined r (Files.extractFormats n vs) := by
    induction vs generalizing n with
    | nil => exact pure fun _ _ ↦ trivial
    | cons v vs ih =>
        refine bind ?_ fun format _ ↦ (ih _).bind fun _ _ ↦ pure fun _ _ ↦ trivial
        unfold Files.extractFormat
        grind -funext
  exact (hformats ..).bind fun _ _ ↦ pure fun _ _ ↦ trivial

theorem files_avoids_readAll {σ : Type} (read : σ → ReadFormat → Except FileFault ReadResult × σ)
    (formats : List ReadFormat) (state : σ) (values : List Value) (hvalues : avoids r values) :
    avoids r (Files.readAll read formats state values).1 := by
  have hresult (result : ReadResult) : avoids r (Files.resultValue result) := by
    unfold Files.resultValue
    split
    · exact nofun
    · next n? =>
      cases n? <;> exact nofun
    · exact nofun
  induction formats generalizing state values with
  | nil => exact hvalues
  | cons format formats ih =>
      unfold Files.readAll
      split
      · grind
      · exact ih _ _ (by grind)
      · unfold Files.failure
        grind

@[grind ←] theorem files_readInput (formats : List ReadFormat) :
    Confined r (Files.readInput formats) := by
  refine input.bind fun input _ ↦ ?_
  have hvalues := files_avoids_readAll (r := r) Input.read formats input [] (by grind)
  exact (setInput _).bind fun _ _ ↦ pure hvalues

@[grind ←] theorem files_readHandle (q : Ref) (h : FileHandle) (formats : List ReadFormat) :
    Confined r (Files.readHandle q h formats) := by
  unfold Files.readHandle
  split
  · apply files_readInput
  · next f =>
    refine world_bind fun files ↦ ?_
    have hvalues := files_avoids_readAll (r := r) (OpenFile.read files) formats f [] (by grind)
    exact (files_setHandle ..).bind fun _ _ ↦ pure hvalues
  all_goals exact pure (by grind [Files.failure])

theorem files_joinTexts (n : Nat) (joined : String) (vs : List Value) :
    Confined r (Files.joinTexts n joined vs) := by
  induction vs generalizing n joined with
  | nil => exact pure trivial
  | cons v vs ih =>
      unfold Files.joinTexts
      split
      · apply ih
      · apply mismatch

theorem files_writeText (q : Ref) (h : FileHandle) (s : String) :
    Confined r (Files.writeText q h s) := by
  unfold Files.writeText
  split
  · exact pure fun _ _ ↦ trivial
  · split
    · exact (modifyWorld _).bind fun _ _ ↦ pure fun _ _ ↦ trivial
    · exact (modifyWorld _).bind fun _ _ ↦ pure fun _ _ ↦ trivial
    · refine world_bind fun files ↦ ?_
      split
      · refine (modifyWorld _).bind fun _ _ ↦ (files_setHandle ..).bind fun _ _ ↦ ?_
        exact pure fun _ _ ↦ trivial
      · exact pure fun _ _ ↦ trivial
    all_goals exact pure fun _ _ ↦ trivial

@[grind ←] theorem files_writeArguments (args : Arguments) (n : Nat) (q : Ref)
    (h : Option FileHandle) : Confined r (Files.writeArguments args n q h) := by
  refine (files_joinTexts ..).bind fun s _ ↦ ?_
  split
  · exact pure (by grind)
  · refine (files_writeText ..).bind fun e _ ↦ ?_
    split <;> exact pure (by grind [Files.failure])

@[grind ←] theorem files_closeHandle (q : Ref) (h : Option FileHandle) :
    Confined r (Files.closeHandle q h) := by
  unfold Files.closeHandle
  grind -funext

@[grind ←] theorem files_openFile (args : Arguments) : Confined r (Files.openFile args) := by
  refine (check ..).bind fun path _ ↦ (opt ..).bind fun mode _ ↦ ?_
  split
  · apply argument
  · refine world_bind fun files ↦ ?_
    split
    · exact (modifyWorld _).bind fun _ _ ↦ (files_newHandle _).bind fun _ hv ↦ pure (by grind)
    · exact pure (by grind)

/-- The functions on files. -/
theorem file (hargs : avoids r args) (f : FileFunction) : Confined r (Files.run f args) := by
  cases f with
  | type_ =>
      refine (checkAny hargs 1).bind fun v _ ↦ ?_
      split
      · refine (files_handle? _).bind fun h _ ↦ ?_
        split <;> exact pure (by grind)
      · exact pure (by grind)
  | _ =>
      simp only [Files.run]
      grind -funext [Files.tostring]

end Files

/-! ## Strings -/

section Strings

theorem strings_extractBytes (n : Nat) (reversed : List UInt8) (vs : List Value) :
    Confined r (Strings.extractBytes n reversed vs) := by
  induction vs generalizing n reversed with
  | nil => exact pure fun _ _ ↦ trivial
  | cons v vs ih =>
      exact (extract ..).bind fun c _ ↦ whenFirst (argument ..) fun _ ↦ ih _ _

theorem strings_convert (hcall : Caller r call) (hargs : avoids r args) (d : Text.Directive)
    (conversion : Char) (n : Nat) : Confined r (Strings.convert call args d conversion n) := by
  have hchars (cs : List Char) : avoids r cs := fun _ _ ↦ trivial
  unfold Strings.convert
  grind -funext

theorem strings_formatFrom (hcall : Caller r call) (hargs : avoids r args) (fuel : Nat)
    (cs : List Char) (n : Nat) (done : String) :
    Confined r (Strings.formatFrom call args fuel cs n done) := by
  induction fuel generalizing cs n done with
  | zero => exact pure trivial
  | succ fuel ih =>
      cases cs with
      | nil => exact pure trivial
      | cons c cs =>
          unfold Strings.formatFrom
          split
          · apply ih
          · split
            · apply ih
            · refine whenFirst (raise ..) fun _ ↦ ?_
              split
              · apply raise
              · refine whenFirst (argument ..) fun _ ↦ ?_
                exact (strings_convert hcall hargs ..).bind fun shown _ ↦ ih _ _ _

/-- The functions on strings. -/
theorem string (hcall : Caller r call) (hargs : avoids r args) (f : StringFunction) :
    Confined r (Strings.run call f args) := by
  cases f with
  | format =>
      refine (check ..).bind fun s _ ↦ (strings_formatFrom hcall hargs ..).bind fun _ _ ↦ ?_
      exact pure (by grind)
  | byte =>
      refine (check ..).bind fun s _ ↦ (opt ..).bind fun i _ ↦ (opt ..).bind fun j _ ↦ ?_
      exact pure (Refers.avoids_map fun _ ↦ nofun)
  | find =>
      refine (check ..).bind fun s _ ↦ (check ..).bind fun text _ ↦ (opt ..).bind fun start _ ↦ ?_
      dsimp only
      split <;> exact pure (by grind)
  | char => exact (strings_extractBytes ..).bind fun _ _ ↦ pure (by grind)
  | _ =>
      simp only [Strings.run]
      grind -funext [Strings.sub, Strings.rep]

end Strings

/-! ## Sequences -/

section Sequence

theorem sequence_order (hcall : Caller r call) (compare : Option Ref) {a b : Value}
    (ha : avoids r a) (hb : avoids r b) : Confined r (Sequence.order call compare a b) := by
  unfold Sequence.order
  split
  · exact (hcall _ _ _ (by exact nofun) (by grind)).bind fun _ _ ↦ pure trivial
  · exact lessThan hcall ha hb

theorem sequence_placeAll {before : Value → Value → Run Bool}
    (h : ∀ a b, avoids r a → avoids r b → Confined r (before a b)) {vs sorted : List Value}
    (hvs : avoids r vs) (hsorted : avoids r sorted) :
    Confined r (Sequence.placeAll before vs sorted) := by
  have hplace {v : Value} (hv : avoids r v) {ws : List Value} (hws : avoids r ws) :
      Confined r (Sequence.place before v ws) := by
    induction ws with
    | nil => exact pure (by grind)
    | cons w ws ih =>
        obtain ⟨hw, hws⟩ := Refers.avoids_cons.1 hws
        refine (h v w hv hw).bind fun isBefore _ ↦ ?_
        split
        · exact (ih hws).bind fun _ hplaced ↦ pure (by grind)
        · exact pure (by grind)
  induction vs generalizing sorted with
  | nil => exact pure hsorted
  | cons v vs ih =>
      obtain ⟨hv, hvs⟩ := Refers.avoids_cons.1 hvs
      exact (hplace hv hsorted).bind fun _ hplaced ↦ ih hvs hplaced

theorem sequence_sort (hcall : Caller r call) (hargs : avoids r args) :
    Confined r (Sequence.sort call args) := by
  refine checkTable_bind hargs fun t ht ↦ (opt? ..).bind fun compare _ ↦ ?_
  refine (length ht).bind fun n _ ↦ ?_
  split
  · exact pure (by grind)
  · refine (readTable ht fun _ ht ↦ Table.avoids_slice ht _ _).bind fun values hvalues ↦ ?_
    refine (sequence_placeAll (fun _ _ ha hb ↦ sequence_order hcall compare ha hb) hvalues
      (by grind)).bind fun sorted hsorted ↦ ?_
    have hreverse : avoids r sorted.reverse := fun v hv ↦ hsorted v (List.mem_reverse.1 hv)
    exact (modifyTable ht fun _ ht ↦ Table.avoids_setFrom ht hreverse 1).bind fun _ _ ↦
      pure (by grind)

theorem sequence_insert (hargs : avoids r args) : Confined r (Sequence.insert args) := by
  have hnone : Confined r (Pure.pure ([] : List Value) : Run (List Value)) := pure (by grind)
  refine checkTable_bind hargs fun t ht ↦ (length ht).bind fun n _ ↦ ?_
  split
  · exact (setInt ht _ (Refers.avoids_arg 2 hargs)).bind fun _ _ ↦ hnone
  · split
    · refine (check ..).bind fun pos _ ↦ whenFirst (argument ..) fun _ ↦ ?_
      have hv := Refers.avoids_arg 3 hargs
      split
      · exact (setInt ht _ hv).bind fun _ _ ↦ hnone
      · exact (modifyTable ht fun _ ht ↦ Table.avoids_insert ht _ hv).bind fun _ _ ↦ hnone
    · exact (raise ..).bind fun _ _ ↦ hnone

theorem sequence_remove (hargs : avoids r args) : Confined r (Sequence.remove args) := by
  refine checkTable_bind hargs fun t ht ↦ (length ht).bind fun n _ ↦ ?_
  split
  · exact pure (by grind)
  · refine (opt ..).bind fun pos _ ↦ ?_
    split
    · exact pure (by grind)
    · refine (readTable ht fun _ ht ↦ (Table.avoids_remove ht _).1).bind fun removed hremoved ↦ ?_
      exact (modifyTable ht fun _ ht ↦ (Table.avoids_remove ht _).2).bind fun _ _ ↦
        pure (by grind)

/-- The functions on sequences. -/
theorem sequence (hcall : Caller r call) (hargs : avoids r args) (f : TableFunction) :
    Confined r (Sequence.run call f args) := by
  cases f with
  | insert => exact sequence_insert hargs
  | remove => exact sequence_remove hargs
  | sort => exact sequence_sort hcall hargs
  | maxn =>
      refine checkTable_bind hargs fun t ht ↦ ?_
      exact (readTable ht fun _ _ ↦ trivial).bind fun _ _ ↦ pure (by grind)
  | concat =>
      refine checkTable_bind hargs fun t ht ↦ (opt ..).bind fun separator _ ↦ ?_
      refine (opt ..).bind fun i _ ↦ (length ht).bind fun n _ ↦ (opt ..).bind fun j _ ↦ ?_
      refine ConfinedTo.bind (P := fun _ ↦ True) (.readTable ht fun _ _ ↦ trivial) fun joined _ ↦ ?_
      split
      · exact pure (by grind)
      · apply raise

end Sequence

/-! ## Numbers -/

section Math

@[grind ←] theorem math_draw : Confined r Math.draw :=
  world_bind fun _ ↦ (modifyWorld _).bind fun _ _ ↦ pure trivial

@[grind ←] theorem math_extreme (better : Float → Float → Bool) (args : Arguments) :
    Confined r (Math.extreme better args) := by
  have hbest (vs : List Value) (n : Nat) (x : Float) : Confined r (Math.best better n x vs) := by
    induction vs generalizing n x with
    | nil => exact pure trivial
    | cons v vs ih => exact (extract ..).bind fun y _ ↦ ih _ _
  exact (check ..).bind fun x _ ↦ (hbest ..).bind fun _ _ ↦ pure (by grind)

@[grind ←] theorem math_unary (f : Float → Float) (args : Arguments) :
    Confined r (Math.unary f args) :=
  (check ..).bind fun _ _ ↦ pure (by grind)

@[grind ←] theorem math_binary (f : Float → Float → Float) (args : Arguments) :
    Confined r (Math.binary f args) :=
  (check ..).bind fun _ _ ↦ (check ..).bind fun _ _ ↦ pure (by grind)

@[grind ←] theorem math_random (args : Arguments) : Confined r (Math.random args) := by
  refine math_draw.bind fun x _ ↦ ?_
  dsimp only
  grind -funext

/-- The functions on numbers. -/
theorem math (f : MathFunction) (args : Arguments) : Confined r (Math.run f args) := by
  cases f <;> simp only [Math.run]
  all_goals grind -funext [Math.randomseed]

end Math

/-! ## The system -/

section System

theorem system_look {α β : Type} [Refers β] {f : World → α} {g : α → Run β}
    (hg : ∀ a, Confined r (g a)) : Confined r (System.look f >>= g) := by
  unfold System.look
  rw [bind_assoc]
  exact (modifyWorld _).bind fun _ _ ↦ world_bind hg

theorem system_dateField {t : Ref} (ht : t ≠ r) (name : String) (default : Option Int) :
    Confined r (System.dateField t name default) := by
  refine (getStr ht name).bind fun v _ ↦ ?_
  split
  · exact pure trivial
  · split
    · exact pure trivial
    · apply raise
  · apply raise

theorem system_time (hargs : avoids r args) : Confined r (System.time args) := by
  refine optTable_bind hargs fun t? ht ↦ ?_
  split
  · exact system_look fun _ ↦ pure (by grind)
  · next t =>
    have ht : t ≠ r := fun heq ↦ ht (congrArg some heq)
    refine (system_dateField ht "year" none).bind fun year _ ↦ ?_
    refine (system_dateField ht "month" none).bind fun month _ ↦ ?_
    refine (system_dateField ht "day" none).bind fun day _ ↦ ?_
    refine (system_dateField ht "hour" (some 12)).bind fun hour _ ↦ ?_
    refine (system_dateField ht "min" (some 0)).bind fun minute _ ↦ ?_
    refine (system_dateField ht "sec" (some 0)).bind fun second _ ↦ ?_
    split <;> exact pure (by grind)

/-- A new table is given fields. -/
theorem newRecord {β : Type} [Refers β] {fields : List (String × Value)} {f : Ref → Run β}
    (hfields : avoids r fields) (hf : ∀ q, q ≠ r → Confined r (f q)) :
    Confined r (do
      let q ← Heap.newTable
      Heap.modifyTable q fun t ↦ fields.foldl (fun t (name, v) ↦ t.setStr name v) t
      f q) :=
  newTable_bind fun q hq ↦
    (modifyTable hq fun _ ht ↦ Table.avoids_setFields ht hfields).bind fun _ _ ↦ hf q hq

@[grind ←] theorem system_render (moment : Moment) (zone : Calendar.Zone) (layout : String) :
    Confined r (System.render moment zone layout) := by
  unfold System.render
  split
  · refine newRecord ?_ fun q hq ↦ pure (Refers.avoids_table.2 hq)
    simp only [System.dateFields, Refers.avoids_cons, Refers.avoids_pair, Refers.avoids_value]
    simp [Refers.avoids]
  · split
    · exact pure nofun
    · apply raise

@[grind ←] theorem system_change (path : String)
    (f : FileSystem → Except FileFault FileSystem) : Confined r (System.change path f) := by
  refine world_bind fun files ↦ ?_
  split
  · exact (modifyWorld _).bind fun _ _ ↦ pure (by grind)
  · exact pure (by grind)

theorem system_date (args : Arguments) : Confined r (System.date args) := by
  refine (opt ..).bind fun layout _ ↦ (opt? ..).bind fun t _ ↦ ?_
  cases t with
  | some t =>
      refine (pure (a := Number.toInt64 t) trivial).bind fun n _ ↦ ?_
      grind -funext
  | none =>
      refine system_look fun n ↦ ?_
      grind -funext

/-- The functions on the surroundings of a program. -/
theorem system (hargs : avoids r args) (f : SystemFunction) : Confined r (System.run f args) := by
  cases f with
  | clock => exact system_look fun _ ↦ pure (by grind)
  | time => exact system_time hargs
  | date => exact system_date args
  | getenv =>
      refine (check ..).bind fun name _ ↦ world_bind fun v? ↦ ?_
      split <;> exact pure (by grind)
  | _ =>
      simp only [System.run]
      grind -funext [System.difftime, System.remove, System.rename, System.exit]

end System

/-! ## Looking into a program -/

section Debug

theorem debug_record {fields : List (String × Value)}
    (hfields : avoids r fields) : Confined r (Debug.record fields) :=
  newRecord hfields fun _ hq ↦ pure (Refers.avoids_table.2 hq)

theorem debug_avoids_frameFields (f : Frame) : avoids r (Debug.frameFields f) := by
  have hline (n? : Option Nat) :
      avoids r ((n?.map fun n ↦ Value.number (Number.ofNat n)).getD Debug.noLine) := by
    cases n? <;> grind [Debug.noLine]
  have hsource (chunk? : Option String) : avoids r (Debug.sourceFields chunk?) := by
    cases chunk? <;> grind [Debug.sourceFields]
  have hname (name? : Option String) :
      avoids r (name?.map fun name ↦ ("name", Value.string name)).toList := by
    cases name? <;> grind
  unfold Debug.frameFields
  grind

theorem debug_getinfo (args : Arguments) : Confined r (Debug.getinfo args) := by
  refine (checkKinds ..).bind fun _ _ ↦ ?_
  split
  · refine (function? _).bind fun f _ ↦ ?_
    split
    · next f _ =>
      have hf : avoids r (Debug.functionFields f) := by
        cases f <;> grind [Debug.functionFields, Debug.sourceFields, Debug.noLine]
      exact (debug_record (by grind [Debug.noLine])).bind fun info hinfo ↦ pure (by grind)
    · exact pure (by grind)
  · refine (check ..).bind fun level _ ↦ ?_
    split
    · exact pure (by grind)
    · refine (frame? _).bind fun f _ ↦ ?_
      split
      · exact (debug_record (debug_avoids_frameFields _)).bind fun info hinfo ↦ pure (by grind)
      · exact pure (by grind)

/-- The functions that look into a running program. -/
theorem debug (hargs : avoids r args) (f : DebugFunction) : Confined r (Debug.run f args) := by
  cases f with
  | setmetatable =>
      refine (checkAny hargs 1).bind fun v hv ↦ (checkKinds ..).bind fun _ _ ↦ ?_
      exact optTable_bind hargs fun mt hmt ↦ (attach hv hmt).bind fun _ _ ↦ pure (by grind)
  | getinfo => exact debug_getinfo args
  | _ =>
      simp only [Debug.run]
      grind -funext [Debug.traceback, Debug.getmetatable]

/-- The functions on threads. -/
theorem coroutine (f : CoroutineFunction) (args : Arguments) :
    Confined r (Coroutine.run f args) := by
  cases f with
  | running => exact pure (by grind)
  | status => exact (check ..).bind fun _ _ ↦ pure (by grind)

end Debug

/-! ## The embedding interface -/

section Embedding

@[grind ←] theorem embedding_level (args : Arguments) (n : Nat) (default : Int) :
    Confined r (Embedding.level args n default) :=
  (opt ..).bind fun _ _ ↦ pure trivial

@[grind ←] theorem embedding_access (hargs : avoids r args) (n : Nat) (a : Accessor) :
    Confined r (Embedding.access args n a) := by
  cases a with
  | checkTable => exact checkTable_bind hargs fun t ht ↦ pure (by grind)
  | optTable =>
      refine optTable_bind hargs fun t? ht ↦ pure ?_
      cases t? <;> grind [Embedding.absent]
  | optFunction | optUserdata =>
      refine (opt? ..).bind fun q? _ ↦ pure ?_
      cases q? <;> grind [Embedding.absent]
  | _ =>
    simp only [Embedding.access]
    grind -funext [Embedding.integerText]

theorem embedding_avoids_record (f : Frame) : avoids r (Embedding.record f) := by
  have hname (name? : Option String) :
      avoids r (name?.map fun name ↦ ("name", Value.string name)).toList := by
    cases name? <;> grind
  unfold Embedding.record
  grind

theorem embedding_frame (args : Arguments) : Confined r (Embedding.frame args) := by
  refine (embedding_level ..).bind fun level _ ↦ (frame? _).bind fun f _ ↦ ?_
  split
  · exact newRecord (embedding_avoids_record _) fun q hq ↦ pure (by grind)
  · exact pure (by grind)

theorem embedding_protectedCall (hcall : Caller r call) (hargs : avoids r args) :
    Confined r (Embedding.protectedCall call args) := by
  refine (checkAny hargs 1).bind fun f hf ↦ ?_
  refine (hcall _ _ _ hf (Refers.avoids_tail hargs)).protect.attempt.bind fun outcome houtcome ↦ ?_
  split <;> exact pure (by grind)

theorem embedding_userdataNumber (args : Arguments) :
    Confined r (Embedding.userdataNumber args) := by
  refine (check ..).bind fun q _ ↦ (opt? ..).bind fun n? _ ↦ (userdata? q).bind fun u _ ↦ ?_
  split
  · exact bind (modifyUserdata q fun _ hu ↦ hu) fun _ _ ↦ pure (by grind)
  · apply argument

/-- The functions for embedding programs. -/
theorem embedding (hcall : Caller r call) (hargs : avoids r args) (f : EmbedFunction) :
    Confined r (Embedding.run call f args) := by
  cases f with
  | pkind => exact embedding_protectedCall hcall hargs
  | frame => exact embedding_frame args
  | depth => exact (machine_nothing _ fun _ _ ↦ rfl).bind fun _ _ ↦ pure (by grind)
  | probe =>
      exact (machine_nothing _ fun _ _ ↦ rfl).bind fun p _ ↦ embedding_access hargs _ _
  | udget => exact embedding_userdataNumber args
  | meta_ =>
      refine (checkAny hargs 1).bind fun v hv ↦ (check ..).bind fun event _ ↦ ?_
      refine (lookup hv event).bind fun found hfound ↦ pure ?_
      cases found with
      | found v => exact Refers.avoids_doubleton.2 ⟨nofun, hfound⟩
      | _ => exact Refers.avoids_singleton.2 nofun
  | _ =>
      simp only [Embedding.run]
      grind -funext [Embedding.traceback, Embedding.raise, Embedding.argumentFault,
        Embedding.kindFault, Embedding.newUserdata]

end Embedding

/-! ## All libraries -/

/-- A native function whose calls are confined, and whose arguments do not refer to a table, does
not get hold of it. -/
theorem native (hcall : Caller r call) (hargs : avoids r args) (fuel : Nat) (op : Native) :
    Confined r (op.run fuel call args) := by
  cases op with
  | base f => exact base hcall hargs fuel f
  | package f => exact package hcall hargs fuel f
  | coroutine f => exact coroutine f args
  | file f => exact file hargs f
  | string f => exact string hcall hargs f
  | table f => exact sequence hcall hargs f
  | math f => exact math f args
  | system f => exact system hargs f
  | debug f => exact debug hargs f
  | embed f => exact embedding hcall hargs f

end LuaEmbed.Run.Confined
