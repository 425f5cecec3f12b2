import LuaEmbed.Library.Files
import LuaEmbed.Proofs.Files.Supplies
import LuaEmbed.Proofs.Runs.After

/-!
# Handles

What the methods of a handle do in a session in which a userdata holds it.  Reading through a handle
is reading the bytes that are left to it, format after format, whatever buffers are in between.
-/

namespace LuaEmbed

/-! ## Lists of runs -/

section Lists

variable {α β : Type} {f : α → Run β} {a : α} {as : List α} {b : β} {bs : List β}
  {s s' s'' : Session}

theorem Run.mapM_cons_of_ok (h : f a s = .ok b s') (has : as.mapM f s' = .ok bs s'') :
    (a :: as).mapM f s = .ok (b :: bs) s'' := by
  rw [List.mapM_cons, Run.bind_of_ok h, Run.bind_of_ok has]
  rfl

end Lists

namespace Library.Files

variable {s : Session} {r : Ref} {h : FileHandle} {args vs : Arguments} {formats : List ReadFormat}
  {f : OpenFile} {content : ByteArray} {bs : List UInt8}

/-! ## Handles in userdata -/

/-- A userdata holds a handle. -/
def Holds (s : Session) (r : Ref) (h : FileHandle) : Prop :=
  ∃ metatable, s.machine.userdata[r]? = some ⟨.file h, metatable⟩

/-- The session with another handle in a userdata. -/
def replaceHandle (s : Session) (r : Ref) (h : FileHandle) : Session :=
  { s with
    machine :=
      { s.machine with
        userdata := s.machine.userdata.modify r fun u ↦ { u with payload := .file h } } }

theorem Holds.replace (hs : Holds s r h) (h' : FileHandle) :
    Holds (replaceHandle s r h') r h' := by
  obtain ⟨metatable, hr⟩ := hs
  refine ⟨metatable, ?_⟩
  change (s.machine.userdata.modify r _)[r]? = _
  rw [Array.getElem?_modify, if_pos rfl, hr]
  rfl

theorem Holds.handle?_apply (hs : Holds s r h) : handle? r s = .ok (some h) s := by
  obtain ⟨metatable, hr⟩ := hs
  have huserdata : Heap.userdata? r s = .ok (some ⟨.file h, metatable⟩) s := by
    rw [Heap.userdata?, hr]
  exact Run.bind_of_ok huserdata

theorem Holds.checkHandle_apply (hs : Holds s r h) (hopen : h ≠ .closed) (args : Arguments) :
    checkHandle (.userdata r :: args) 1 s = .ok (r, h) s := by
  refine (Run.bind_of_ok hs.handle?_apply).trans ?_
  cases h with
  | closed => exact absurd rfl hopen
  | _ => rfl

/-- A handle that is closed is complained about. -/
theorem Holds.checkHandle_closed (hs : Holds s r .closed) (args : Arguments) :
    checkHandle (.userdata r :: args) 1 s = Report.raise .runtime .closedFile s :=
  Run.bind_of_ok hs.handle?_apply

/-! ## Formats -/

/-- A value as a format. -/
def format? : Value → Option ReadFormat
  | .number x => some (.count (Number.toNatBelow Number.words64 x))
  | .string name => ReadFormat.ofName? name
  | _ => none

/-- The formats that arguments ask for: a line if there are none. -/
def formats? (args : Arguments) : Option (List ReadFormat) :=
  if args.isEmpty then some [.line] else args.mapM format?

theorem extractFormat_eq {v : Value} {format : ReadFormat} (h : format? v = some format) (n : Nat) :
    extractFormat n v = pure format := by
  cases v with
  | number x => exact congrArg pure (Option.some.inj h)
  | string name =>
      change ReadFormat.ofName? name = some format at h
      rw [extractFormat, h]
  | _ => exact nomatch h

theorem extractFormats_eq (h : vs.mapM format? = some formats) (n : Nat) :
    extractFormats n vs = pure formats := by
  induction vs generalizing n formats with
  | nil =>
      obtain rfl := Option.some.inj h
      rfl
  | cons v vs ih =>
      rw [List.mapM_cons] at h
      obtain ⟨format, hv, h⟩ := Option.bind_eq_some_iff.1 h
      obtain ⟨rest, hvs, h⟩ := Option.bind_eq_some_iff.1 h
      obtain rfl := Option.some.inj h
      rw [extractFormats, extractFormat_eq hv, pure_bind, ih hvs, pure_bind]

theorem checkFormats_eq {n : Nat} (hargs : args.drop n = vs) (h : formats? vs = some formats) :
    checkFormats args (n + 1) = pure formats := by
  unfold formats? at h
  split at h
  · next hnone =>
    obtain rfl := Option.some.inj h
    rw [checkFormats, Nat.add_sub_cancel, hargs, List.isEmpty_iff.1 hnone]
    rfl
  · next hsome =>
    have hformats : formats.isEmpty = false := by
      cases vs with
      | nil => exact absurd rfl hsome
      | cons v vs =>
          rw [List.mapM_cons] at h
          obtain ⟨format, -, h⟩ := Option.bind_eq_some_iff.1 h
          obtain ⟨rest, -, h⟩ := Option.bind_eq_some_iff.1 h
          rw [← Option.some.inj h]
          rfl
    rw [checkFormats, Nat.add_sub_cancel, hargs, extractFormats_eq h, pure_bind, hformats]
    rfl

/-! ## Reading -/

/-- The values that formats give of bytes, and the bytes behind what they take. -/
def readBytes (formats : List ReadFormat) (bs : List UInt8) : List Value × List UInt8 :=
  readAll (fun bs format ↦ format.reads bs) formats bs []

/-- Reading from something is reading the bytes that are left to it, if one read is. -/
theorem readAll_eq {σ : Type} {read : σ → ReadFormat → Except FileFault ReadResult × σ}
    (Left : List UInt8 → σ → Prop)
    (hread : ∀ format bs x, Left bs x → (read x format).1 = (format.reads bs).1 ∧
      Left (format.reads bs).2 (read x format).2)
    (formats : List ReadFormat) {x : σ} (hx : Left bs x) (values : List Value) :
    (readAll read formats x values).1 =
        (readAll (fun bs format ↦ format.reads bs) formats bs values).1 ∧
      Left (readAll (fun bs format ↦ format.reads bs) formats bs values).2
        (readAll read formats x values).2 := by
  induction formats generalizing x bs values with
  | nil => exact ⟨rfl, hx⟩
  | cons format formats ih =>
      obtain ⟨hresult, hleft⟩ := hread format bs x hx
      rw [readAll, readAll]
      rcases hx' : read x format with ⟨result, x'⟩
      rcases hbs' : format.reads bs with ⟨result', bs'⟩
      rw [hx', hbs'] at hresult hleft
      obtain rfl : result = result' := hresult
      match result with
      | .ok .endOfInput => exact ⟨rfl, hleft⟩
      | .ok (.text u) => exact ih hleft _
      | .ok (.number n) => exact ih hleft _
      | .error e => exact ⟨rfl, hleft⟩

/-- The bytes of a content that are left to an open file, behind the place up to which it has been
read. -/
structure Leaves (f : OpenFile) (content : ByteArray) (bs : List UInt8) : Prop where
  valid : f.place.place ≤ content.size
  left : (Supply.View.content content).leftBehind f.place = bs

theorem readAll_openFile {files : FileSystem} (hread : f.mode.read = true)
    (hcontent : files.content? f.node = some content) (hf : Leaves f content bs)
    (formats : List ReadFormat) :
    ∃ place, readAll (OpenFile.read files) formats f [] =
        ((readBytes formats bs).1, { f with place }) ∧
      Leaves { f with place } content (readBytes formats bs).2 := by
  have hstep (format : ReadFormat) (bs : List UInt8) (g : OpenFile)
      (hg : (∃ place, g = { f with place }) ∧ Leaves g content bs) :
      (g.read files format).1 = (format.reads bs).1 ∧
        (∃ place, (g.read files format).2 = { f with place }) ∧
          Leaves (g.read files format).2 content (format.reads bs).2 := by
    obtain ⟨⟨place, rfl⟩, hvalid, rfl⟩ := hg
    obtain ⟨hresult, hleft, hvalid'⟩ := (Supply.View.content content).read_eq hvalid format
    have hopen : (!f.mode.read) = false := by rw [hread]; rfl
    rw [OpenFile.read, hopen, hcontent]
    exact ⟨hresult, ⟨_, rfl⟩, hvalid', hleft⟩
  obtain ⟨hvalues, ⟨place, hplace⟩, hleaves⟩ := readAll_eq
    (fun bs g ↦ (∃ place, g = { f with place }) ∧ Leaves g content bs) hstep formats
    ⟨⟨f.place, rfl⟩, hf⟩ []
  exact ⟨place, Prod.ext hvalues hplace, hplace ▸ hleaves⟩

/-- Reading through the handle of an open file gives the bytes that are left to it, and changes
nothing but the handle. -/
theorem Holds.handleRead_opened (hs : Holds s r (.opened f)) (hread : f.mode.read = true)
    (hcontent : s.world.files.content? f.node = some content) (hf : Leaves f content bs)
    (hargs : formats? args = some formats) :
    ∃ place, run .handleRead (.userdata r :: args) s =
        .ok (readBytes formats bs).1 (replaceHandle s r (.opened { f with place })) ∧
      Leaves { f with place } content (readBytes formats bs).2 := by
  obtain ⟨place, hall, hleaves⟩ := readAll_openFile hread hcontent hf formats
  refine ⟨place, ?_, hleaves⟩
  have hhandle : readHandle r (.opened f) formats s =
      .ok (readBytes formats bs).1 (replaceHandle s r (.opened { f with place })) := by
    have hfiles : Run.world World.files s = .ok s.world.files s := rfl
    rw [readHandle]
    refine (Run.bind_of_ok hfiles).trans ?_
    rw [hall]
    rfl
  refine (Run.bind_of_ok (hs.checkHandle_apply nofun args)).trans ?_
  have hformats : checkFormats (.userdata r :: args) 2 = pure formats := checkFormats_eq rfl hargs
  change (checkFormats (.userdata r :: args) 2 >>= readHandle r (.opened f)) s = _
  rw [hformats, pure_bind, hhandle]

/-- The bytes that are left on standard input, in both of its buffers and behind them. -/
def InputLeaves (input : Input) (bs : List UInt8) : Prop :=
  ∃ place, input = .bytes place ∧ Supply.View.list.buffered.leftBehind place = bs

theorem readAll_input {input : Input} (hinput : InputLeaves input bs) (formats : List ReadFormat) :
    ∃ input', readAll Input.read formats input [] = ((readBytes formats bs).1, input') ∧
      InputLeaves input' (readBytes formats bs).2 := by
  have hstep (format : ReadFormat) (bs : List UInt8) (input : Input) (h : InputLeaves input bs) :
      (input.read format).1 = (format.reads bs).1 ∧
        InputLeaves (input.read format).2 (format.reads bs).2 := by
    obtain ⟨place, rfl, rfl⟩ := h
    obtain ⟨hresult, hleft, -⟩ := Supply.View.list.buffered.read_eq trivial format
    exact ⟨hresult, _, rfl, hleft⟩
  obtain ⟨hvalues, hleaves⟩ := readAll_eq _ hstep formats hinput []
  exact ⟨_, Prod.ext hvalues rfl, hleaves⟩

/-- The session with another rest of standard input. -/
def replaceInput (s : Session) (input : Input) : Session :=
  { s with machine := { s.machine with input } }

/-- Reading standard input gives the bytes that are left there, and changes nothing else. -/
theorem readInput_apply (hinput : InputLeaves s.machine.input bs) (formats : List ReadFormat) :
    ∃ input, readInput formats s =
        .ok (readBytes formats bs).1 (replaceInput s input) ∧
      InputLeaves input (readBytes formats bs).2 := by
  obtain ⟨input, hall, hleaves⟩ := readAll_input hinput formats
  refine ⟨input, ?_, hleaves⟩
  have hmachine : Run.machine Machine.input s = .ok s.machine.input s := rfl
  rw [readInput]
  refine (Run.bind_of_ok hmachine).trans ?_
  rw [hall]
  rfl

/-- A way to read: through the handle in a userdata, or standard input without one. -/
inductive Reader where
  | handle (r : Ref)
  | standardInput

namespace Reader

/-- Read what the arguments ask for. -/
def read : Reader → Arguments → Run (List Value)
  | .handle r, args => run .handleRead (.userdata r :: args)
  | .standardInput, args => run .read args

/-- The bytes that are left to read. -/
def Left (x : Reader) (bs : List UInt8) (s : Session) : Prop :=
  match x with
  | .handle r =>
    (∃ f content, Holds s r (.opened f) ∧ f.mode.read = true ∧
      s.world.files.content? f.node = some content ∧ Leaves f content bs) ∨
    (Holds s r .standardInput ∧ InputLeaves s.machine.input bs)
  | .standardInput => InputLeaves s.machine.input bs

variable {x : Reader}

/-- Whatever is read from, the bytes that are left are read, and those behind them are left. -/
theorem Left.read (h : x.Left bs s) (hargs : formats? args = some formats) :
    ∃ s', x.read args s = .ok (readBytes formats bs).1 s' ∧
      x.Left (readBytes formats bs).2 s' := by
  match x with
  | .standardInput =>
      obtain ⟨input, hread, hleaves⟩ := readInput_apply h formats
      refine ⟨replaceInput s input, ?_, hleaves⟩
      have hformats : checkFormats args 1 = pure formats := checkFormats_eq rfl hargs
      change (checkFormats args 1 >>= readInput) s = _
      rw [hformats, pure_bind, hread]
  | .handle r =>
      rcases h with ⟨f, content, hs, hread, hcontent, hf⟩ | ⟨hs, hinput⟩
      · obtain ⟨place, hrun, hleaves⟩ := hs.handleRead_opened hread hcontent hf hargs
        exact ⟨_, hrun, .inl ⟨_, content, hs.replace _, hread, hcontent, hleaves⟩⟩
      · obtain ⟨input, hread, hleaves⟩ := readInput_apply hinput formats
        refine ⟨replaceInput s input, ?_, .inr ⟨hs, hleaves⟩⟩
        refine (Run.bind_of_ok (hs.checkHandle_apply nofun args)).trans ?_
        have hformats : checkFormats (.userdata r :: args) 2 = pure formats :=
          checkFormats_eq rfl hargs
        change (checkFormats (.userdata r :: args) 2 >>= readInput) s = _
        rw [hformats, pure_bind, hread]

end Reader

end Library.Files

end LuaEmbed
