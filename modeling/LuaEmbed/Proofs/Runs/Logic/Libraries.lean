import LuaEmbed.Proofs.Runs.Logic.Operations

/-!
# The libraries in a logic of runs

What every native function does for two callers is related if their calls are.  The functions that
give any string key of any table a value, those that give tables other metatables, those that use
more of the surroundings than the files and the output, and those that make protected calls need a
logic that allows it.
-/

namespace LuaEmbed

/-- The function may give string keys of tables that are there already values. -/
def Native.assigns : Native → Bool
  | .base .rawset | .package .require | .package .seeall => true
  | _ => false

/-- The function may give a table that is there already another metatable. -/
def Native.attaches : Native → Bool
  | .base .setmetatable | .package .seeall | .debug .setmetatable => true
  | _ => false

/-- The function may use more of the surroundings than the files and the output. -/
def Native.usesSurroundings : Native → Bool
  | .file _ | .system _ | .math .random | .math .randomseed => true
  | _ => false

/-- The function makes a protected call. -/
def Native.protects : Native → Bool
  | .base .pcall | .base .xpcall | .embed .pkind => true
  | _ => false

namespace Run.Logic.Agree

open Library

variable {L : Run.Logic} {m : Bool} {call call' : Caller}

/-! ## The base library -/

section Base

variable (args : Arguments)

theorem base_pcall (hc : L.Catches) (hcall : L.Callers m call call') :
    L.Agree m (Base.pcall call args) (Base.pcall call' args) := by
  refine (checkAny args 1).bind fun f ↦ (((hcall ..).protect).attempt hc).bind fun outcome ↦ ?_
  split <;> apply pure

theorem base_xpcall (hc : L.Catches) (hcall : L.Callers m call call') :
    L.Agree m (Base.xpcall call args) (Base.xpcall call' args) := by
  refine (checkAny args 1).bind fun f ↦ (checkAny args 2).bind fun handler ↦ ?_
  refine (((hcall ..).protect).attempt hc).bind fun outcome ↦ ?_
  split
  · apply pure
  · exact (hcall ..).bind fun _ ↦ .pure _

theorem base_texts (hcall : L.Callers m call call') (reversed : List String) (vs : List Value) :
    L.Agree m (Base.texts call reversed vs) (Base.texts call' reversed vs) := by
  induction vs generalizing reversed with
  | nil => apply pure
  | cons v vs ih => exact (tostring hcall v).bind fun s ↦ ih _

@[grind ←] theorem base_print (hcall : L.Callers m call call') :
    L.Agree m (Base.print call args) (Base.print call' args) :=
  (base_texts hcall [] args).bind fun _ ↦ bind (L.print _) fun _ ↦ .pure _

@[grind ←] theorem base_loaded {load : Run Value} (h : L.Keeps m load) :
    L.Keeps m (Base.loaded load) := by
  refine h.attempt_self.bind fun outcome ↦ ?_
  split <;> apply pure

@[grind ←] theorem base_readPieces (hcall : L.Callers m call call') (reader : Value) (fuel : Nat)
    (text : String) :
    L.Agree m (Base.readPieces call reader fuel text) (Base.readPieces call' reader fuel text) := by
  induction fuel generalizing text with
  | zero => apply abort
  | succ fuel ih =>
      refine (hcall ..).bind fun results ↦ ?_
      split
      · apply pure
      · split
        · apply pure
        · apply ih
      · apply pure

@[grind ←] theorem base_load (hcall : L.Callers m call call') (fuel : Nat) :
    L.Agree m (Base.load fuel call args) (Base.load fuel call' args) := by
  refine (opt args ..).bind fun chunk ↦ ?_
  split
  · exact base_loaded (loadBytes ..)
  · refine (base_readPieces hcall ..).bind fun text ↦ ?_
    split
    · exact base_loaded (loadBytes ..)
    · apply pure
  · apply argument

/-- A value is stored without metamethods. -/
theorem base_rawset (h : ∀ r s, args.arg 1 = .table r → args.arg 2 = .string s → L.Writes r s) :
    L.Keeps m (Base.rawset args) := by
  refine L.bind (checked args .table 1) fun t ht ↦ ?_
  refine L.bind (checkedAny args 2) fun k hk ↦ (checkAny args 3).bind fun v ↦ ?_
  refine (set (fun s hs ↦ h t s (Extractor.table_eq_of_get? ht) (hk ▸ hs)) v).bind fun outcome ↦ ?_
  split
  · apply pure
  · apply raise

theorem base_setmetatable (ha : L.Attaches) : L.Keeps m (Base.setmetatable args) := by
  refine (check args ..).bind fun t ↦ (checkKinds args ..).bind fun _ ↦ ?_
  refine (metaField ..).bind fun field ↦ whenFirst (raise ..) fun _ ↦ ?_
  exact (opt? args ..).bind fun mt ↦ (attach ha ..).bind fun _ ↦ .pure _

/-- The functions of the global table. -/
theorem base (hcall : L.Callers m call call') (fuel : Nat) (f : BaseFunction)
    (hassigns : (Native.base f).assigns = true → ∀ r s, L.Writes r s)
    (ha : (Native.base f).attaches = true → L.Attaches)
    (hc : (Native.base f).protects = true → L.Catches) :
    L.Agree m (Base.run fuel call f args) (Base.run fuel call' f args) := by
  cases f with
  | rawset => exact base_rawset args fun r s _ _ ↦ hassigns rfl r s
  | setmetatable => exact base_setmetatable args (ha rfl)
  | pcall => exact base_pcall args (hc rfl) hcall
  | xpcall => exact base_xpcall args (hc rfl) hcall
  | print => exact base_print args hcall
  | load => exact base_load args hcall fuel
  | dofile =>
      exact (opt args ..).bind fun path ↦ (loadFile path).bind fun f ↦ hcall ..
  | tostring =>
      exact (checkAny args 1).bind fun v ↦ (tostring hcall v).bind fun _ ↦ .pure _
  | _ =>
      simp only [Base.run]
      grind -funext [Base.assert, Base.error, Base.tonumber, Base.ipairs, Base.ipairsStep,
        Base.pairs, Base.next, Base.select, Base.rawget, Base.rawequal, Base.getmetatable,
        Base.unpack, Base.loadstring, Base.loadfile]

end Base

/-! ## The package library -/

section Package

variable (args : Arguments)

theorem package_search (hcall : L.Callers m call call') (loaders : Ref) (name : String) (fuel : Nat)
    (i : Int) (tried : String) :
    L.Agree m (Package.search call loaders name fuel i tried)
      (Package.search call' loaders name fuel i tried) := by
  induction fuel generalizing i tried with
  | zero => apply abort
  | succ fuel ih =>
      refine (getInt ..).bind fun searcher ↦ whenFirst (raise ..) fun _ ↦ ?_
      refine (hcall ..).bind fun results ↦ ?_
      split
      · apply pure
      · apply ih
      · apply ih

/-- A module is recorded in the table of loaded modules, under its name. -/
theorem package_require (hreg : L.Registers) (hcall : L.Callers m call call') (fuel : Nat)
    (h : L.Rel m Module.loaded Module.loaded fun r ↦
      ∀ s, args.arg 1 = .string s → L.Writes r s) :
    L.Agree m (Package.require fuel call args) (Package.require fuel call' args) := by
  refine L.bind (checked args .string 1) fun name hname ↦ L.bind h fun loaded hloaded ↦ ?_
  have hwrites := hloaded name (Extractor.string_eq_of_get? hname)
  refine (getStr ..).bind fun existing ↦ ?_
  dsimp only
  split
  · apply pure
  · refine (moduleField hreg ..).bind fun loaders ↦ ?_
    split
    · refine (package_search hcall ..).bind fun loader ↦ (hcall ..).bind fun results ↦ ?_
      grind -funext
    · apply raise

theorem package_loadFirst (name : String) (files : List String) (tried : String) :
    L.Keeps m (Package.loadFirst name files tried) := by
  induction files generalizing tried with
  | nil => apply pure
  | cons file files ih =>
      refine bind (L.files fun files ↦ files.isFile file) fun isFile ↦ ?_
      split
      · refine (loadFile file).attempt_self.bind fun outcome ↦ ?_
        split
        · apply pure
        · apply raise
      · apply ih

/-- A metatable is given a field. -/
theorem package_seeall (h : ∀ r, L.Writes r "__index") (ha : L.Attaches) :
    L.Keeps m (Package.seeall args) := by
  have hset (module mt : Ref) : L.Keeps m (do
      Heap.setStr mt "__index" (.table (← Run.machine Machine.globals))
      Metatable.attach (.table module) (some mt)
      return ([] : List Value)) :=
    (machine _).bind fun _ ↦ (setStr (h mt) _).bind fun _ ↦ (attach ha ..).bind fun _ ↦ .pure _
  refine (check args ..).bind fun module ↦ (metatable _).bind fun mt ↦ ?_
  split
  · exact (pure _).bind fun mt ↦ hset module mt
  · exact newTable_bind fun mt _ ↦ hset module mt

/-- The functions that find and load modules. -/
theorem package (hreg : L.Registers) (hcall : L.Callers m call call') (fuel : Nat)
    (f : PackageFunction) (hassigns : (Native.package f).assigns = true → ∀ r s, L.Writes r s)
    (ha : (Native.package f).attaches = true → L.Attaches) :
    L.Agree m (Package.run fuel call f args) (Package.run fuel call' f args) := by
  cases f with
  | require =>
      exact package_require args hreg hcall fuel (mono hreg.loaded fun r _ s _ ↦ hassigns rfl r s)
  | seeall => exact package_seeall args (fun r ↦ hassigns rfl r _) (ha rfl)
  | fileSearcher =>
      refine (check args ..).bind fun name ↦ (moduleField hreg ..).bind fun path ↦ ?_
      split
      · apply package_loadFirst
      · apply raise
  | preloadSearcher =>
      refine (check args ..).bind fun name ↦ (moduleField hreg ..).bind fun preload ↦ ?_
      grind -funext

end Package

/-! ## Files -/

section Files

variable (args : Arguments)

@[grind ←] theorem files_newHandle (hreg : L.Registers) (h : FileHandle) :
    L.Keeps m (Files.newHandle h) := newTypedUserdata hreg ..

@[grind ←] theorem files_handle? (r : Ref) : L.Keeps m (Files.handle? r) := by
  unfold Files.handle?
  grind -funext

@[grind ←] theorem files_setHandle (r : Ref) (h : FileHandle) : L.Keeps m (Files.setHandle r h) :=
  modifyUserdata ..

@[grind ←] theorem files_checkHandle (n : Nat) : L.Keeps m (Files.checkHandle args n) := by
  unfold Files.checkHandle
  grind -funext

@[grind ←] theorem files_shownHandle? (hreg : L.Registers) (name : String) :
    L.Keeps m (Files.shownHandle? name) := by
  unfold Files.shownHandle?
  grind -funext

@[grind ←] theorem files_checkFormats (n : Nat) : L.Keeps m (Files.checkFormats args n) := by
  have hformats (vs : List Value) (n : Nat) : L.Keeps m (Files.extractFormats n vs) := by
    induction vs generalizing n with
    | nil => apply pure
    | cons v vs ih =>
        refine bind ?_ fun format ↦ (ih _).bind fun _ ↦ .pure _
        unfold Files.extractFormat
        grind -funext
  exact (hformats ..).bind fun _ ↦ .pure _

@[grind ←] theorem files_readInput (formats : List ReadFormat) :
    L.Keeps m (Files.readInput formats) :=
  (machine _).bind fun _ ↦ (setInput _).bind fun _ ↦ .pure _

@[grind ←] theorem files_readHandle (hs : L.Shares) (r : Ref) (h : FileHandle)
    (formats : List ReadFormat) : L.Keeps m (Files.readHandle r h formats) := by
  unfold Files.readHandle
  grind -funext

theorem files_joinTexts (n : Nat) (joined : String) (vs : List Value) :
    L.Keeps m (Files.joinTexts n joined vs) := by
  induction vs generalizing n joined with
  | nil => apply pure
  | cons v vs ih =>
      unfold Files.joinTexts
      split
      · apply ih
      · apply mismatch

theorem files_writeText (hs : L.Shares) (r : Ref) (h : FileHandle) (s : String) :
    L.Keeps m (Files.writeText r h s) := by
  unfold Files.writeText
  grind -funext

@[grind ←] theorem files_writeArguments (hs : L.Shares) (n : Nat) (r : Ref)
    (h : Option FileHandle) : L.Keeps m (Files.writeArguments args n r h) := by
  refine (files_joinTexts ..).bind fun s ↦ ?_
  split
  · apply pure
  · refine (files_writeText hs ..).bind fun e ↦ ?_
    split <;> apply pure

@[grind ←] theorem files_closeHandle (r : Ref) (h : Option FileHandle) :
    L.Keeps m (Files.closeHandle r h) := by
  unfold Files.closeHandle
  grind -funext

@[grind ←] theorem files_openFile (hreg : L.Registers) (hs : L.Shares) :
    L.Keeps m (Files.openFile args) := by
  refine (check args ..).bind fun path ↦ (opt args ..).bind fun mode ↦ ?_
  split
  · apply argument
  · refine (world hs _).bind fun files ↦ ?_
    split
    · exact (modifyWorld hs _).bind fun _ ↦ (files_newHandle hreg _).bind fun _ ↦ .pure _
    · apply pure

/-- The functions on files. -/
theorem file (hreg : L.Registers) (hs : L.Shares) (f : FileFunction) :
    L.Keeps m (Files.run f args) := by
  cases f <;> simp only [Files.run]
  all_goals grind -funext [Files.typeOf, Files.tostring]

end Files

/-! ## Strings -/

section Strings

variable (args : Arguments)

@[grind ←] theorem strings_extractBytes (n : Nat) (reversed : List UInt8) (vs : List Value) :
    L.Keeps m (Strings.extractBytes n reversed vs) := by
  induction vs generalizing n reversed with
  | nil => apply pure
  | cons v vs ih =>
      exact (extract ..).bind fun c ↦ whenFirst (argument ..) fun _ ↦ ih _ _

theorem strings_convert (hcall : L.Callers m call call') (d : Text.Directive) (conversion : Char)
    (n : Nat) :
    L.Agree m (Strings.convert call args d conversion n)
      (Strings.convert call' args d conversion n) := by
  unfold Strings.convert
  grind -funext

theorem strings_formatFrom (hcall : L.Callers m call call') (fuel : Nat) (cs : List Char) (n : Nat)
    (done : String) :
    L.Agree m (Strings.formatFrom call args fuel cs n done)
      (Strings.formatFrom call' args fuel cs n done) := by
  induction fuel generalizing cs n done with
  | zero => apply pure
  | succ fuel ih =>
      cases cs with
      | nil => apply pure
      | cons c cs =>
          unfold Strings.formatFrom
          split
          · apply ih
          · split
            · apply ih
            · refine whenFirst (raise ..) fun _ ↦ ?_
              split
              · apply raise
              · refine whenFirst (argument ..) fun _ ↦ ?_
                exact (strings_convert args hcall ..).bind fun shown ↦ ih _ _ _

/-- The functions on strings. -/
theorem string (hcall : L.Callers m call call') (f : StringFunction) :
    L.Agree m (Strings.run call f args) (Strings.run call' f args) := by
  cases f with
  | format =>
      exact (check args ..).bind fun s ↦ (strings_formatFrom args hcall ..).bind fun _ ↦ .pure _
  | _ =>
      simp only [Strings.run]
      grind -funext [Strings.sub, Strings.rep, Strings.byte, Strings.char, Strings.find]

end Strings

/-! ## Sequences -/

section Sequence

variable (args : Arguments)

theorem sequence_order (hcall : L.Callers m call call') (compare : Option Ref) (a b : Value) :
    L.Agree m (Sequence.order call compare a b) (Sequence.order call' compare a b) := by
  unfold Sequence.order
  split
  · exact (hcall ..).bind fun _ ↦ .pure _
  · exact lessThan hcall a b

theorem sequence_placeAll {before before' : Value → Value → Run Bool}
    (h : ∀ a b, L.Agree m (before a b) (before' a b)) (vs sorted : List Value) :
    L.Agree m (Sequence.placeAll before vs sorted) (Sequence.placeAll before' vs sorted) := by
  have hplace (v : Value) (ws : List Value) :
      L.Agree m (Sequence.place before v ws) (Sequence.place before' v ws) := by
    induction ws with
    | nil => apply pure
    | cons w ws ih =>
        refine (h v w).bind fun isBefore ↦ ?_
        split
        · exact ih.bind fun _ ↦ .pure _
        · apply pure
  induction vs generalizing sorted with
  | nil => apply pure
  | cons v vs ih => exact (hplace v sorted).bind fun sorted ↦ ih sorted

theorem sequence_sort (hcall : L.Callers m call call') :
    L.Agree m (Sequence.sort call args) (Sequence.sort call' args) := by
  refine (check args ..).bind fun t ↦ (opt? args ..).bind fun compare ↦ (length t).bind fun n ↦ ?_
  split
  · apply pure
  · refine (readTable ..).bind fun values ↦ ?_
    refine (sequence_placeAll (sequence_order hcall compare) ..).bind fun sorted ↦ ?_
    exact (modifyTable (fun t key ↦ t.getStr_setFrom ..) fun t ↦ t.metatable_setFrom ..).bind
      fun _ ↦ .pure _

theorem sequence_insert : L.Keeps m (Sequence.insert args) := by
  refine (check args ..).bind fun t ↦ (length t).bind fun n ↦ ?_
  dsimp only
  split
  · exact (setInt ..).bind fun _ ↦ .pure _
  · split
    · refine (check args ..).bind fun pos ↦ whenFirst (argument ..) fun _ ↦ ?_
      split
      · exact (setInt ..).bind fun _ ↦ .pure _
      · exact (modifyTable (fun t key ↦ t.getStr_insert ..) fun t ↦ t.metatable_insert ..).bind
          fun _ ↦ .pure _
    · exact (raise ..).bind fun _ ↦ .pure _

theorem sequence_remove : L.Keeps m (Sequence.remove args) := by
  refine (check args ..).bind fun t ↦ (length t).bind fun n ↦ ?_
  split
  · apply pure
  · refine (opt args ..).bind fun pos ↦ ?_
    split
    · apply pure
    · refine (readTable ..).bind fun removed ↦ ?_
      exact (modifyTable (fun t key ↦ t.getStr_remove ..) fun t ↦ t.metatable_remove ..).bind
        fun _ ↦ .pure _

/-- The functions on sequences. -/
theorem sequence (hcall : L.Callers m call call') (f : TableFunction) :
    L.Agree m (Sequence.run call f args) (Sequence.run call' f args) := by
  cases f with
  | sort => exact sequence_sort args hcall
  | concat =>
      refine (check args ..).bind fun t ↦ (opt args ..).bind fun separator ↦ ?_
      refine (opt args ..).bind fun i ↦ (length t).bind fun n ↦ (opt args ..).bind fun j ↦ ?_
      refine (readTable ..).bind fun joined ↦ ?_
      split
      · apply pure
      · apply raise
  | _ =>
      simp only [Sequence.run]
      grind -funext [sequence_insert, sequence_remove, Sequence.maxn]

end Sequence

/-! ## Numbers -/

section Math

variable (args : Arguments)

theorem math_draw (hs : L.Shares) : L.Keeps m Math.draw :=
  (world hs _).bind fun _ ↦ (modifyWorld hs _).bind fun _ ↦ .pure _

@[grind ←] theorem math_extreme (better : Float → Float → Bool) :
    L.Keeps m (Math.extreme better args) := by
  have hbest (vs : List Value) (n : Nat) (x : Float) : L.Keeps m (Math.best better n x vs) := by
    induction vs generalizing n x with
    | nil => apply pure
    | cons v vs ih => exact (extract ..).bind fun y ↦ ih _ _
  exact (check args ..).bind fun x ↦ (hbest ..).bind fun _ ↦ .pure _

@[grind ←] theorem math_unary (f : Float → Float) : L.Keeps m (Math.unary f args) :=
  (check args ..).bind fun _ ↦ .pure _

@[grind ←] theorem math_binary (f : Float → Float → Float) : L.Keeps m (Math.binary f args) :=
  (check args ..).bind fun _ ↦ (check args ..).bind fun _ ↦ .pure _

@[grind ←] theorem math_random (hs : L.Shares) : L.Keeps m (Math.random args) := by
  refine (math_draw hs).bind fun r ↦ ?_
  dsimp only
  grind -funext

/-- The functions on numbers. -/
theorem math (f : MathFunction) (hs : (Native.math f).usesSurroundings = true → L.Shares) :
    L.Keeps m (Math.run f args) := by
  cases f <;> simp only [Math.run]
  all_goals grind -funext [Math.randomseed, Native.usesSurroundings]

end Math

/-! ## The system -/

section System

variable (args : Arguments)

@[grind ←] theorem system_look {α : Type} (hs : L.Shares) (f : World → α) :
    L.Keeps m (System.look f) :=
  (modifyWorld hs _).bind fun _ ↦ world hs f

theorem system_dateField (t : Ref) (name : String) (default : Option Int) :
    L.Keeps m (System.dateField t name default) := by
  unfold System.dateField
  grind -funext

@[grind ←] theorem system_time (hs : L.Shares) : L.Keeps m (System.time args) := by
  refine (opt? args ..).bind fun t ↦ ?_
  split
  · exact (system_look hs _).bind fun _ ↦ .pure _
  · next t =>
    refine (system_dateField t "year" none).bind fun year ↦ ?_
    refine (system_dateField t "month" none).bind fun month ↦ ?_
    refine (system_dateField t "day" none).bind fun day ↦ ?_
    refine (system_dateField t "hour" (some 12)).bind fun hour ↦ ?_
    refine (system_dateField t "min" (some 0)).bind fun minute ↦ ?_
    refine (system_dateField t "sec" (some 0)).bind fun second ↦ ?_
    split <;> apply pure

@[grind ←] theorem system_render (moment : Moment) (zone : Calendar.Zone) (layout : String) :
    L.Keeps m (System.render moment zone layout) := by
  unfold System.render
  split
  · exact newTable_bind fun r hr ↦ (setFields hr _).bind fun _ ↦ .pure _
  · split
    · apply pure
    · apply raise

@[grind ←] theorem system_change (hs : L.Shares) (path : String)
    (f : FileSystem → Except FileFault FileSystem) : L.Keeps m (System.change path f) := by
  unfold System.change
  grind -funext

@[grind ←] theorem system_date (hs : L.Shares) : L.Keeps m (System.date args) := by
  refine (opt args ..).bind fun layout ↦ (opt? args ..).bind fun t ↦ ?_
  cases t with
  | some t =>
      refine (pure _).bind fun n ↦ ?_
      grind -funext
  | none =>
      refine (system_look hs _).bind fun n ↦ ?_
      grind -funext

/-- The functions on the surroundings of a program. -/
theorem system (hs : L.Shares) (f : SystemFunction) : L.Keeps m (System.run f args) := by
  cases f <;> simp only [System.run]
  all_goals
    grind -funext [System.difftime, System.getenv, System.remove, System.rename, System.exit]

end System

/-! ## Looking into a program -/

section Debug

variable (args : Arguments)

@[grind ←] theorem debug_record (fields : List (String × Value)) :
    L.Keeps m (Debug.record fields) :=
  newTable_bind fun _ hr ↦ (setFields hr _).bind fun _ ↦ .pure _

@[grind ←] theorem debug_getinfo : L.Keeps m (Debug.getinfo args) := by
  refine (checkKinds args ..).bind fun _ ↦ ?_
  split
  · refine (function? _).bind fun f ↦ ?_
    grind -funext
  · refine (check args ..).bind fun level ↦ ?_
    grind -funext

/-- The functions that look into a running program. -/
theorem debug (f : DebugFunction) (ha : (Native.debug f).attaches = true → L.Attaches) :
    L.Keeps m (Debug.run f args) := by
  cases f with
  | setmetatable =>
      refine (checkAny args 1).bind fun v ↦ (checkKinds args ..).bind fun _ ↦ ?_
      exact (opt? args ..).bind fun mt ↦ (attach (ha rfl) ..).bind fun _ ↦ .pure _
  | _ =>
      simp only [Debug.run]
      grind -funext [Debug.traceback, Debug.getmetatable]

/-- The functions on threads. -/
theorem coroutine (f : CoroutineFunction) : L.Keeps m (Coroutine.run f args) := by
  cases f with
  | running => apply pure
  | status => exact (check args ..).bind fun _ ↦ .pure _

end Debug

/-! ## The embedding interface -/

section Embedding

variable (args : Arguments)

@[grind ←] theorem embedding_level (n : Nat) (default : Int) :
    L.Keeps m (Embedding.level args n default) :=
  (opt args ..).bind fun _ ↦ .pure _

@[grind ←] theorem embedding_access (n : Nat) (a : Accessor) :
    L.Keeps m (Embedding.access args n a) := by
  cases a <;> simp only [Embedding.access]
  all_goals grind -funext

/-- A record about a frame is a new table. -/
@[grind ←] theorem embedding_frame : L.Keeps m (Embedding.frame args) := by
  refine (embedding_level args ..).bind fun level ↦ (frame? _).bind fun f ↦ ?_
  split
  · exact newTable_bind fun _ hr ↦ (setFields hr _).bind fun _ ↦ .pure _
  · apply pure

theorem embedding_protectedCall (hc : L.Catches) (hcall : L.Callers m call call') :
    L.Agree m (Embedding.protectedCall call args) (Embedding.protectedCall call' args) := by
  refine (checkAny args 1).bind fun f ↦ (((hcall ..).protect).attempt hc).bind fun outcome ↦ ?_
  split <;> apply pure

/-- The functions for embedding programs. -/
theorem embedding (hreg : L.Registers) (hcall : L.Callers m call call') (f : EmbedFunction)
    (hc : (Native.embed f).protects = true → L.Catches) :
    L.Agree m (Embedding.run call f args) (Embedding.run call' f args) := by
  cases f with
  | pkind => exact embedding_protectedCall args (hc rfl) hcall
  | _ =>
      simp only [Embedding.run]
      grind -funext [Embedding.traceback, Embedding.raise, Embedding.argumentFault,
        Embedding.kindFault, Embedding.probe, Embedding.newUserdata, Embedding.userdataNumber]

end Embedding

/-! ## All libraries -/

/-- What a native function does for two callers is related if their calls are. -/
theorem native (hreg : L.Registers) (hcall : L.Callers m call call') (fuel : Nat) (op : Native)
    (args : Arguments) (hassigns : op.assigns = true → ∀ r s, L.Writes r s)
    (ha : op.attaches = true → L.Attaches) (hs : op.usesSurroundings = true → L.Shares)
    (hc : op.protects = true → L.Catches) :
    L.Agree m (op.run fuel call args) (op.run fuel call' args) := by
  cases op with
  | base f => exact base args hcall fuel f hassigns ha hc
  | package f => exact package args hreg hcall fuel f hassigns ha
  | coroutine f => exact coroutine args f
  | file f => exact file args hreg (hs rfl) f
  | string f => exact string args hcall f
  | table f => exact sequence args hcall f
  | math f => exact math args f hs
  | system f => exact system args (hs rfl) f
  | debug f => exact debug args f ha
  | embed f => exact embedding args hreg hcall f hc

/-! ## Installation -/

/-- The libraries by name, each with the functions that its module gets. -/
def libraries : List (String × Module.FunctionSet) :=
  [("package", Package.functions), ("_G", Base.functions), ("coroutine", Coroutine.functions),
    ("io", Files.functions), ("string", Strings.functions), ("table", Sequence.functions),
    ("math", Math.functions), ("os", System.functions), ("debug", Debug.functions)]

/-- The name of a library has one part. -/
theorem splitOn_of_mem_libraries :
    ∀ library ∈ libraries, library.1.splitOn "." = [library.1] := by
  simp only [libraries, List.forall_mem_cons]
  refine ⟨?_, ?_, ?_, ?_, ?_, ?_, ?_, ?_, ?_, List.forall_mem_nil _⟩
  all_goals
    simp +decide only [String.splitOn]
    -- One step for each character, and one for the end.
    repeat
      rw [String.splitOnAux]
      simp +decide

section Installation

variable (hreg : L.Registers) (hw : ∀ r s, s ≠ Module.loadedKey → L.Writes r s)

include hw

theorem install {functions : Module.FunctionSet} (h : ∀ f ∈ functions, f.1 ≠ Module.loadedKey)
    (r : Ref) : L.Keeps m (Module.install r functions) := by
  induction functions with
  | nil => apply pure
  | cons f rest ih =>
      have hall := List.forall_mem_cons.1 h
      exact (newNative ..).bind fun _ ↦ (setStr (hw _ _ hall.1) _).bind fun _ ↦ ih hall.2

theorem setGlobal {name : String} (h : name ≠ Module.loadedKey) (v : Value) :
    L.Keeps m (Module.setGlobal name v) :=
  (machine _).bind fun _ ↦ setStr (hw _ _ h) _

theorem setDefault {key : String} (h : key ≠ Module.loadedKey) (r : Ref) {value : Run Value}
    (hvalue : L.Keeps m value) : L.Keeps m (Package.setDefault r key value) := by
  refine (getStr ..).bind fun present ↦ ?_
  split
  · exact hvalue.bind fun v ↦ setStr (hw _ _ h) _
  · apply pure

include hreg

/-- A library is installed as a module.  Nothing about it is named like the table of loaded
modules. -/
theorem register {l : String × Module.FunctionSet} (h : l ∈ libraries) :
    L.Keeps m (Module.register l.1 l.2) := by
  have hname : ∀ l ∈ libraries, l.1 ≠ Module.loadedKey := by decide
  have hfunctions : ∀ l ∈ libraries, ∀ f ∈ l.2, f.1 ≠ Module.loadedKey := by decide
  have hfind (v : Value) : L.Keeps m (Module.findTable v l.1) := by
    rw [Module.findTable, splitOn_of_mem_libraries l h]
    refine findAlong (fun r name hmem ↦ hw r name ?_) v
    rw [List.mem_singleton.1 hmem]
    exact hname l h
  refine hreg.loaded.bind fun loaded ↦ (getStr loaded _).bind fun recorded ↦ ?_
  split
  · apply pure
  · refine (machine _).bind fun globals ↦ (hfind _).bind fun found ↦ ?_
    split
    · refine (install hw (hfunctions l h) _).bind fun _ ↦ ?_
      exact (setStr (hw _ _ (hname l h)) _).bind fun _ ↦ .pure _
    · apply raise

/-- The templates for files of modules are looked up in the environment. -/
theorem openPackage (hs : L.Shares) : L.Keeps m Package.openLibrary := by
  have hsearchers : L.Keeps m Package.newSearchers := by
    refine newTable_bind fun r _ ↦ (newNative ..).bind fun preload ↦ (setInt ..).bind fun _ ↦ ?_
    exact (newNative ..).bind fun file ↦ (setInt ..).bind fun _ ↦ .pure _
  have hpath (name default : String) :
      L.Keeps m (return Value.string (← Package.searchPath name default)) :=
    (world hs _).bind fun _ ↦ .pure _
  have htable : L.Keeps m (return Value.table (← Heap.newTable)) :=
    newTable_bind fun _ _ ↦ .pure _
  refine (register hreg hw (l := ("package", Package.functions)) (by decide)).bind
    fun package ↦ hreg.loaded.bind fun loaded ↦ ?_
  refine (setStr (hw _ _ (by decide)) _).bind fun _ ↦ ?_
  refine (setDefault hw (by decide) _ htable).bind fun _ ↦ ?_
  refine (setDefault hw (by decide) _ (hpath ..)).bind fun _ ↦ ?_
  refine (setDefault hw (by decide) _ (hpath ..)).bind fun _ ↦ ?_
  refine (setStr (hw _ _ (by decide)) _).bind fun _ ↦ ?_
  refine (setDefault hw (by decide) _ hsearchers).bind fun _ ↦ ?_
  exact (newNative ..).bind fun _ ↦ setGlobal hw (by decide) _

theorem openBase : L.Keeps m Base.openLibrary := by
  refine (machine _).bind fun globals ↦ (setGlobal hw (by decide) _).bind fun _ ↦ ?_
  refine (register hreg hw (l := ("_G", Base.functions)) (by decide)).bind fun _ ↦ ?_
  exact setGlobal hw (by decide) _

theorem openFiles : L.Keeps m Files.openLibrary := by
  have hhandles (r : Ref) {handles : List (String × FileHandle)}
      (h : ∀ handle ∈ handles, handle.1 ≠ Module.loadedKey) :
      L.Keeps m (Files.installHandles r handles) := by
    induction handles with
    | nil => apply pure
    | cons handle rest ih =>
        have hall := List.forall_mem_cons.1 h
        refine (getStr ..).bind fun present ↦ ?_
        split
        · refine (files_newHandle hreg _).bind fun _ ↦ ?_
          exact (setStr (hw _ _ hall.1) _).bind fun _ ↦ ih hall.2
        · exact ih hall.2
  refine (register hreg hw (l := ("io", Files.functions)) (by decide)).bind fun library ↦ ?_
  refine (hreg.ofType _).bind fun mt ↦ (getStr ..).bind fun methods ↦ ?_
  split
  · refine newTable_bind fun table _ ↦ (install hw (by decide) _).bind fun _ ↦ ?_
    refine (newNative ..).bind fun _ ↦ (setStr (hw _ _ (by decide)) _).bind fun _ ↦ ?_
    exact (setStr (hw _ _ (by decide)) _).bind fun _ ↦ hhandles _ (by decide)
  · exact hhandles _ (by decide)

theorem openStrings : L.Keeps m Strings.openLibrary := by
  refine (register hreg hw (l := ("string", Strings.functions)) (by decide)).bind
    fun library ↦ (machine _).bind fun mt ↦ ?_
  split
  · exact newTable_bind fun mt hmt ↦ (setStr (hmt _) _).bind fun _ ↦ L.setStringMetatable mt
  · apply pure

theorem openMath : L.Keeps m Math.openLibrary := by
  refine (register hreg hw (l := ("math", Math.functions)) (by decide)).bind fun library ↦ ?_
  exact (setStr (hw _ _ (by decide)) _).bind fun _ ↦ setStr (hw _ _ (by decide)) _

/-- All libraries can be installed where everything but the table of loaded modules may be
written. -/
theorem openAll (hs : L.Shares) : L.Keeps m Library.openAll := by
  have hregister {l : String × Module.FunctionSet} (h : l ∈ libraries) :
      L.Keeps m (do let _ ← Module.register l.1 l.2) :=
    (register hreg hw h).bind fun _ ↦ .pure _
  refine (openPackage hreg hw hs).bind fun _ ↦ (openBase hreg hw).bind fun _ ↦ ?_
  refine (hregister (l := ("coroutine", _)) (by decide)).bind fun _ ↦ ?_
  refine (openFiles hreg hw).bind fun _ ↦ (openStrings hreg hw).bind fun _ ↦ ?_
  refine (hregister (l := ("table", _)) (by decide)).bind fun _ ↦ ?_
  refine (openMath hreg hw).bind fun _ ↦ ?_
  refine (hregister (l := ("os", _)) (by decide)).bind fun _ ↦ ?_
  exact hregister (l := ("debug", _)) (by decide)

end Installation

end Run.Logic.Agree

end LuaEmbed
