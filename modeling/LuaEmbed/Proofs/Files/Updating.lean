import Mathlib
import LuaEmbed.Proofs.Files.Writing
import LuaEmbed.Proofs.Host.Registry

/-!
# Reading and writing through one handle

A handle that both reads and writes should behave like a file with one content and one position.  It
does as long as nothing has been read ahead where something is written.  What has been read ahead
puts the text as many bytes behind the position, and stays at hand.
-/

namespace LuaEmbed.Library.Files

open Text (bytes)

variable {s : Session} {r : Ref} {path : String} {args vs : Arguments} {f : OpenFile}
  {bs : List UInt8} {formats : List ReadFormat}

/-! ## Files with one position -/

/-- A file with a content and the position of the next transfer. -/
structure FileState where
  content : List UInt8
  position : Nat
  closed : Bool

/-- A call of a method of a handle, with the arguments behind the handle. -/
inductive HandleCall where
  | read (args : Arguments)
  | write (args : Arguments)
  | close (args : Arguments)

/-- The text that arguments are written as, if all of them have one. -/
def text? (args : Arguments) : Option String := (args.mapM Value.toText?).map String.join

/-- Bytes with others written over them from an offset on. -/
def splice (bs : List UInt8) (k : Nat) (new : List UInt8) : List UInt8 :=
  bs.take k ++ new ++ bs.drop (k + new.length)

namespace FileState

variable {a : FileState}

/-- A read takes bytes from the position on, and moves it behind them. -/
def read (a : FileState) (formats : List ReadFormat) : List Value × FileState :=
  let (values, rest) := readBytes formats (a.content.drop a.position)
  (values, { a with position := a.content.length - rest.length })

/-- A write puts bytes over those at the position, and moves it behind them. -/
def write (a : FileState) (new : List UInt8) : FileState :=
  { a with content := splice a.content a.position new, position := a.position + new.length }

/-- What a call returns, unless it fails, and the file after it. -/
def call (r : Ref) (a : FileState) (c : HandleCall) : Option (List Value) × FileState :=
  if a.closed then (none, a)
  else
    match c with
    | .read args =>
      match formats? args with
      | some formats => ((a.read formats).1, (a.read formats).2)
      | none => (none, a)
    | .write args =>
      match text? args with
      | some u => (some [.userdata r], a.write (bytes u))
      | none => (none, a)
    | .close _ => (some [.boolean true], { a with closed := true })

/-- What calls return one after another, and the file after them. -/
def callAll (r : Ref) (a : FileState) : List HandleCall → List (Option (List Value)) × FileState
  | [] => ([], a)
  | c :: cs =>
    let (result, a) := a.call r c
    let (results, a) := a.callAll r cs
    (result :: results, a)

end FileState

namespace HandleCall

/-- What a call does on the handle in a userdata. -/
def run (r : Ref) : HandleCall → Run (List Value)
  | .read args => Files.run .handleRead (.userdata r :: args)
  | .write args => Files.run .handleWrite (.userdata r :: args)
  | .close args => Files.run .handleClose (.userdata r :: args)

/-- What calls return one after another, unless they fail, and the session after them. -/
def runAll (r : Ref) : List HandleCall → Session → List (Option (List Value)) × Session
  | [], s => ([], s)
  | c :: cs, s =>
    let (results, s') := runAll r cs ((c.run r).after s)
    ((c.run r).result? s :: results, s')

/-- Nothing has been read ahead of the place where a call writes something. -/
def Settled (r : Ref) (s : Session) : HandleCall → Prop
  | .write args => text? args = some "" ∨ ∀ f, Holds s r (.opened f) → f.place.ahead = []
  | .read _ | .close _ => True

/-- Nothing has been read ahead where any of the calls writes something. -/
def AllSettled (r : Ref) : List HandleCall → Session → Prop
  | [], _ => True
  | c :: cs, s => c.Settled r s ∧ AllSettled r cs ((c.run r).after s)

end HandleCall

/-! ## Calls that fail -/

theorem extractFormats_fault (h : vs.mapM format? = none) (k : Nat) (s : Session) :
    ∃ e, extractFormats k vs s = .error e s := by
  induction vs generalizing k with
  | nil => cases h
  | cons v vs ih =>
      rw [List.mapM_cons] at h
      cases hv : format? v with
      | none =>
          have hfault : ∃ e, extractFormat k v s = .error e s := by
            cases v with
            | number x => cases hv
            | string name =>
                change ReadFormat.ofName? name = none at hv
                rw [extractFormat, hv]
                exact ⟨_, rfl⟩
            | _ => exact ⟨_, rfl⟩
          obtain ⟨e, he⟩ := hfault
          exact ⟨e, Run.bind_of_error he⟩
      | some format =>
          rw [hv, Option.bind_eq_bind, Option.bind_some] at h
          cases hvs : vs.mapM format? with
          | some formats =>
              rw [hvs] at h
              cases h
          | none =>
              obtain ⟨e, he⟩ := ih hvs (k + 1)
              rw [extractFormats, extractFormat_eq hv, pure_bind]
              exact ⟨e, Run.bind_of_error he⟩

/-- Arguments that are no formats are complained about before anything is read. -/
theorem checkFormats_fault (h : formats? args = none) (v : Value) (s : Session) :
    ∃ e, checkFormats (v :: args) 2 s = .error e s := by
  unfold formats? at h
  split at h
  · cases h
  · obtain ⟨e, he⟩ := extractFormats_fault h 2 s
    exact ⟨e, Run.bind_of_error he⟩

/-- Arguments without a text are complained about before anything is written. -/
theorem joinTexts_fault (h : vs.mapM Value.toText? = none) (k : Nat) (joined : String) (s : Session) :
    ∃ e, joinTexts k joined vs s = .error e s := by
  induction vs generalizing k joined with
  | nil => cases h
  | cons v vs ih =>
      rw [List.mapM_cons] at h
      cases hv : v.toText? with
      | none =>
          rw [joinTexts, hv]
          exact ⟨_, rfl⟩
      | some x =>
          rw [hv, Option.bind_eq_bind, Option.bind_some] at h
          cases hvs : vs.mapM Value.toText? with
          | some texts =>
              rw [hvs] at h
              cases h
          | none =>
              rw [joinTexts, hv]
              exact ih hvs _ _

/-! ## What is left after a read -/

theorem reads_suffix (format : ReadFormat) (bs : List UInt8) : (format.reads bs).2 <:+ bs := by
  cases format with
  | all => exact List.nil_suffix
  | count | number | line => exact List.drop_suffix ..

theorem readAll_suffix (formats : List ReadFormat) (bs : List UInt8) (values : List Value) :
    (readAll (fun bs format ↦ format.reads bs) formats bs values).2 <:+ bs := by
  induction formats generalizing bs values with
  | nil => exact List.suffix_refl bs
  | cons format formats ih =>
      have hfirst := reads_suffix format bs
      rw [readAll]
      rcases hreads : format.reads bs with ⟨result, rest⟩
      rw [hreads] at hfirst
      cases result with
      | error e => exact hfirst
      | ok answer =>
          cases answer with
          | endOfInput => exact hfirst
          | text | number => exact (ih rest _).trans hfirst

/-- What is left is the end of what there was. -/
theorem readBytes_rest (formats : List ReadFormat) (bs : List UInt8) :
    (readBytes formats bs).2 <:+ bs :=
  readAll_suffix formats bs []

/-! ## Where a handle stands -/

theorem Leaves.place_eq {content : ByteArray} {k : Nat}
    (h : Leaves f content (content.data.toList.drop k)) (hk : k ≤ content.size) :
    f.place.place = k + f.place.ahead.length := by
  obtain ⟨hvalid, hleft⟩ := h
  have hlength := congrArg List.length hleft
  have hsize : content.data.toList.length = content.size := rfl
  change (f.place.ahead ++ content.data.toList.drop f.place.place).length = _ at hlength
  rw [List.length_append, List.length_drop, List.length_drop, hsize] at hlength
  omega

theorem Holds.eq {h h' : FileHandle} (hs : Holds s r h) (hs' : Holds s r h') : h = h' := by
  obtain ⟨metatable, hr⟩ := hs
  obtain ⟨metatable', hr'⟩ := hs'
  rw [hr] at hr'
  cases hr'
  rfl

theorem splice_nil (bs : List UInt8) (k : Nat) : splice bs k [] = bs := by
  rw [splice, List.append_nil, List.length_nil, Nat.add_zero, List.take_append_drop]

theorem length_splice {k : Nat} (hk : k ≤ bs.length) (new : List UInt8) :
    k + new.length ≤ (splice bs k new).length := by
  rw [splice, List.length_append, List.length_append, List.length_take, Nat.min_eq_left hk]
  exact Nat.le_add_right ..

theorem toList_overwrite_splice {content : ByteArray} {k : Nat} (hk : k ≤ content.size)
    (new : ByteArray) : (FileSystem.overwrite content k new).data.toList =
      splice content.data.toList k new.data.toList :=
  toList_overwrite hk new

/-! ## One call -/

/-- The file that a path leads to has the content of a file state, and what is left to the handle of a
userdata is what stands behind its position; a handle that is closed is closed there as well. -/
def Tracks (s : Session) (r : Ref) (path : String) (a : FileState) : Prop :=
  s.world.files.Sound ∧ a.position ≤ a.content.length ∧
    ∃ f content, s.world.files.find path = .ok f.node ∧
      s.world.files.content? f.node = some content ∧ content.data.toList = a.content ∧
      Holds s r (if a.closed then .closed else .opened f) ∧
      f.mode.read = true ∧ f.mode.write = true ∧ f.mode.append = false ∧
      Leaves f content (a.content.drop a.position)

namespace HandleCall

variable {a : FileState} {c : HandleCall}

/-- What a call returns, and what becomes of the file, is what a file state says. -/
def Agrees (r : Ref) (path : String) (s : Session) (a : FileState) (c : HandleCall) : Prop :=
  (c.run r).result? s = (a.call r c).1 ∧ Tracks ((c.run r).after s) r path (a.call r c).2

theorem agrees_of_ok {values : List Value} {s' : Session} {b : FileState}
    (hrun : c.run r s = .ok values s') (hcall : a.call r c = (some values, b))
    (hs' : Tracks s' r path b) : c.Agrees r path s a := by
  rw [Agrees, hcall, Run.result?, Run.after_of_ok hrun, hrun]
  exact ⟨rfl, hs'⟩

theorem agrees_of_error {e : Abort} (hrun : c.run r s = .error e s) (hcall : a.call r c = (none, a))
    (hs : Tracks s r path a) : c.Agrees r path s a := by
  rw [Agrees, hcall, Run.result?, Run.after_of_error hrun, hrun]
  exact ⟨rfl, hs⟩

/-- No call succeeds on a handle that is closed. -/
theorem agrees_of_closed (hs : Tracks s r path a) (hclosed : a.closed = true) (c : HandleCall) :
    c.Agrees r path s a := by
  have hholds : Holds s r .closed := by
    obtain ⟨-, -, f, content, -, -, -, hholds, -⟩ := hs
    rwa [hclosed] at hholds
  have hcall : a.call r c = (none, a) := by
    rw [FileState.call.eq_def, if_pos hclosed]
  have hcheck (args : Arguments) : ∃ e, checkHandle (.userdata r :: args) 1 s = .error e s :=
    ⟨_, hholds.checkHandle_closed args⟩
  cases c with
  | read args | write args | close args =>
      obtain ⟨e, he⟩ := hcheck args
      exact agrees_of_error (Run.bind_of_error he) hcall hs

theorem agrees_close (hs : Tracks s r path a) (hopen : a.closed = false) (args : Arguments) :
    (close args).Agrees r path s a := by
  obtain ⟨hsound, hposition, f, content, hfind, hcontent, heq, hholds, hmode⟩ := hs
  rw [hopen] at hholds
  refine agrees_of_ok (hholds.handleClose_opened args) (b := { a with closed := true }) ?_
    ⟨hsound, hposition, f, content, hfind, hcontent, heq, hholds.replace _, hmode⟩
  rw [FileState.call, hopen]
  rfl

theorem agrees_read (hs : Tracks s r path a) (hopen : a.closed = false) (args : Arguments) :
    (read args).Agrees r path s a := by
  obtain ⟨hsound, hposition, f, content, hfind, hcontent, heq, hholds, hread, hwrite, happend,
    hleaves⟩ := id hs
  rw [hopen] at hholds
  cases hargs : formats? args with
  | none =>
      obtain ⟨e, he⟩ := checkFormats_fault hargs (.userdata r) s
      have hfault : run r (read args) s = .error e s :=
        (Run.bind_of_ok (hholds.checkHandle_apply nofun args)).trans (Run.bind_of_error he)
      refine agrees_of_error hfault ?_ hs
      rw [FileState.call, hopen, hargs]
      rfl
  | some formats =>
      obtain ⟨place, hrun, hleaves'⟩ := hholds.handleRead_opened hread hcontent hleaves hargs
      have hrest := readBytes_rest formats (a.content.drop a.position)
      have hsuffix := hrest.trans (List.drop_suffix ..)
      refine agrees_of_ok hrun (b := (a.read formats).2) ?_ ⟨hsound, Nat.sub_le ..,
        { f with place }, content, hfind, hcontent, heq, ?_, hread, hwrite, happend, ?_⟩
      · rw [FileState.call, hopen, hargs]
        rfl
      · rw [FileState.read]
        dsimp only
        rw [hopen]
        exact hholds.replace _
      · rw [FileState.read]
        dsimp only
        rwa [← List.suffix_iff_eq_drop.1 hsuffix]

/-- What is written goes as far behind the position as bytes have been read ahead. -/
theorem run_write (hs : Tracks s r path a) (hopen : a.closed = false) (hf : Holds s r (.opened f))
    {u : String} (hu : text? args = some u) :
    ∃ s' content, run r (write args) s = .ok [.userdata r] s' ∧
      Holds s' r (.opened (advance f u.utf8ByteSize)) ∧ s'.world.files.Sound ∧
      s'.world.files.find path = .ok f.node ∧ s'.world.files.content? f.node = some content ∧
      content.data.toList = splice a.content (a.position + f.place.ahead.length) (bytes u) := by
  obtain ⟨hsound, hposition, g, content, hfind, hcontent, heq, hholds, -, hwrite, happend,
    hleaves⟩ := hs
  rw [hopen] at hholds
  cases hf.eq hholds
  obtain ⟨texts, htexts, rfl⟩ := Option.map_eq_some_iff.1 hu
  rw [← heq] at hposition hleaves
  obtain ⟨s', hrun, hholds', hcontent', hextends, hsound'⟩ :=
    hholds.handleWrite_opened hwrite happend hcontent hleaves.valid htexts
  refine ⟨s', _, hrun, hholds', hsound' hsound, hextends.find hsound hfind, hcontent', ?_⟩
  rw [toList_overwrite_splice hleaves.valid, hleaves.place_eq hposition, heq]
  rfl

theorem agrees_write (hs : Tracks s r path a) (hopen : a.closed = false)
    (hsettled : (write args).Settled r s) : (write args).Agrees r path s a := by
  obtain ⟨hsound, hposition, f, content, hfind, hcontent, heq, hholds, hread, hwrite, happend,
    hleaves⟩ := id hs
  rw [hopen] at hholds
  cases hu : text? args with
  | none =>
      have htexts : args.mapM Value.toText? = none := Option.map_eq_none_iff.1 hu
      obtain ⟨e, he⟩ := joinTexts_fault htexts 2 "" s
      have hfault : run r (write args) s = .error e s :=
        (Run.bind_of_ok (hholds.checkHandle_apply nofun args)).trans (Run.bind_of_error he)
      refine agrees_of_error hfault ?_ hs
      rw [FileState.call, hopen, hu]
      rfl
  | some u =>
      obtain ⟨s', content', hrun, hholds', hsound', hfind', hcontent', heq'⟩ :=
        run_write hs hopen hholds hu
      have hwritten : a.call r (write args) = (some [.userdata r], a.write (bytes u)) := by
        rw [FileState.call, hopen, hu]
        rfl
      have hholds'' : Holds s' r (if (a.write (bytes u)).closed then .closed
          else .opened (advance f u.utf8ByteSize)) := by
        change Holds s' r (if a.closed then _ else _)
        rwa [hopen]
      refine agrees_of_ok hrun hwritten ?_
      rcases hsettled with hnone | hnothing
      · obtain rfl : u = "" := Option.some.inj (hu.symm.trans hnone)
        have hsame : (a.write (bytes "")).content = a.content := splice_nil ..
        obtain rfl : content' = content :=
          ByteArray.ext (Array.toList_inj.1 (heq'.trans ((splice_nil ..).trans heq.symm)))
        exact ⟨hsound', hsame ▸ hposition, advance f 0, content', hfind', hcontent',
          heq.trans hsame.symm, hholds'', hread, hwrite, happend, hsame ▸ hleaves⟩
      · have hahead : f.place.ahead = [] := hnothing f hholds
        rw [hahead, List.length_nil, Nat.add_zero] at heq'
        rw [← heq] at hleaves hposition
        have hplace := hleaves.place_eq hposition
        rw [hahead, List.length_nil, Nat.add_zero] at hplace
        rw [heq] at hposition
        have hbehind := length_splice hposition (bytes u)
        refine ⟨hsound', hbehind, advance f u.utf8ByteSize, content', hfind', hcontent', heq',
          hholds'', hread, hwrite, happend, ?_, ?_⟩
        · change f.place.place + u.utf8ByteSize ≤ content'.data.toList.length
          rw [hplace, heq']
          exact hbehind
        · change f.place.ahead ++ content'.data.toList.drop (f.place.place + u.utf8ByteSize) =
            (splice a.content a.position (bytes u)).drop (a.position + (bytes u).length)
          rw [hahead, hplace, heq']
          rfl

/-- One call does to the file what it does to a file state, if nothing has been read ahead where it
writes something. -/
theorem agrees (hs : Tracks s r path a) (hsettled : c.Settled r s) : c.Agrees r path s a := by
  cases hclosed : a.closed with
  | true => exact agrees_of_closed hs hclosed c
  | false =>
      cases c with
      | read args => exact agrees_read hs hclosed args
      | write args => exact agrees_write hs hclosed hsettled
      | close args => exact agrees_close hs hclosed args

/-! ## Sequences of calls -/

theorem runAll_agrees {cs : List HandleCall} (hs : Tracks s r path a)
    (hsettled : AllSettled r cs s) : (runAll r cs s).1 = (a.callAll r cs).1 ∧
      Tracks (runAll r cs s).2 r path (a.callAll r cs).2 := by
  induction cs generalizing s a with
  | nil => exact ⟨rfl, hs⟩
  | cons c cs ih =>
      obtain ⟨hresult, hs'⟩ := agrees hs hsettled.1
      obtain ⟨hresults, hs''⟩ := ih hs' hsettled.2
      exact ⟨List.cons_eq_cons.2 ⟨hresult, hresults⟩, hs''⟩

end HandleCall

theorem Tracks.readFile {a : FileState} (hs : Tracks s r path a) :
    ∃ content, s.world.files.readFile path = .ok content ∧ content.data.toList = a.content := by
  obtain ⟨-, -, f, content, hfind, hcontent, heq, -⟩ := hs
  exact ⟨content, FileSystem.readFile_eq_ok.2 ⟨f.node, hfind, hcontent⟩, heq⟩

/-! ## Opening -/

/-- A mode in which a handle both reads and writes, and the content of a file that is opened in it. -/
inductive Updates (files : FileSystem) (path : String) : String → ByteArray → Prop
  | kept {content : ByteArray} (hcontent : files.readFile path = .ok content) :
      Updates files path "r+" content
  | emptied : Updates files path "w+" ByteArray.empty

theorem openMode_r_plus : openMode? "r+" = some ⟨true, true, false, false, false⟩ := by
  simp [openMode?, modes]

theorem openMode_w_plus : openMode? "w+" = some ⟨true, true, false, true, true⟩ := by
  simp [openMode?, modes]

/-- A handle that has just been opened stands at the beginning of the content. -/
theorem Updates.tracks {s' : Session} {name : String} {content : ByteArray}
    (h : Updates s.world.files path name content) (hs : s.world.files.Sound)
    (hopen : run .openFile [.string path, .string name] s = .ok [.userdata r] s') :
    Tracks s' r path ⟨content.data.toList, 0, false⟩ := by
  cases h with
  | kept hcontent =>
      obtain ⟨n, hnode, hholds⟩ := openNode_of_openFile openMode_r_plus hopen
      obtain ⟨m, hnode', hfind, hm⟩ := FileSystem.openNode_of_readFile hcontent
        (rfl : FileSystem.OpenMode.create ⟨true, true, false, false, false⟩ = false) rfl
      rw [hnode] at hnode'
      obtain ⟨rfl, hfiles⟩ := Prod.mk.inj (Except.ok.inj hnode')
      rw [← hfiles] at hfind hm
      exact ⟨hfiles ▸ hs, Nat.zero_le _, _, content, hfind, hm, rfl, hholds, rfl, rfl, rfl,
        Nat.zero_le _, rfl⟩
  | emptied =>
      obtain ⟨n, hnode, hholds⟩ := openNode_of_openFile openMode_w_plus hopen
      obtain ⟨hsound, hfind⟩ := hs.find_openNode hnode
      exact ⟨hsound, Nat.le_refl _, _, _, hfind, hs.content_openNode hnode rfl rfl, rfl, hholds,
        rfl, rfl, rfl, Nat.zero_le _, rfl⟩

/-- A handle opened with mode `r+` or `w+` is a file with one content and one position, through every
sequence of calls in which nothing has been read ahead where something is written.  What is written
where bytes have been read ahead goes as many bytes behind the position. -/
theorem updates_agree {s₁ : Session} {name : String} {content : ByteArray}
    (hsound : s.world.files.Sound) (hupdates : Updates s.world.files path name content)
    (hopen : run .openFile [.string path, .string name] s = .ok [.userdata r] s₁)
    {calls : List HandleCall} (hsettled : HandleCall.AllSettled r calls s₁) :
    let (results, s₂) := HandleCall.runAll r calls s₁
    let (results', a) := FileState.callAll r ⟨content.data.toList, 0, false⟩ calls
    results = results' ∧
      (∃ content', s₂.world.files.readFile path = .ok content' ∧
        content'.data.toList = a.content) ∧
      ∀ args u f, text? args = some u → Holds s₂ r (.opened f) →
        ∃ s₃ content', (HandleCall.write args).run r s₂ = .ok [.userdata r] s₃ ∧
          s₃.world.files.readFile path = .ok content' ∧
          content'.data.toList =
            splice a.content (a.position + f.place.ahead.length) (bytes u) := by
  obtain ⟨hresults, hs⟩ := HandleCall.runAll_agrees (hupdates.tracks hsound hopen) hsettled
  refine ⟨hresults, hs.readFile, fun args u f hu hf ↦ ?_⟩
  have hclosed : (FileState.callAll r ⟨content.data.toList, 0, false⟩ calls).2.closed = false := by
    obtain ⟨-, -, g, -, -, -, -, hholds, -⟩ := hs
    cases hclosed : (FileState.callAll r ⟨content.data.toList, 0, false⟩ calls).2.closed with
    | false => rfl
    | true =>
        rw [hclosed] at hholds
        cases hf.eq hholds
  obtain ⟨s₃, content', hrun, -, -, hfind, hcontent, heq⟩ := HandleCall.run_write hs hclosed hf hu
  exact ⟨s₃, content', hrun, FileSystem.readFile_eq_ok.2 ⟨_, hfind, hcontent⟩, heq⟩

/-- A file is written, read from the position, and closed. -/
theorem updates_agree_emptied :
    let s : Session := ⟨Machine.initial 200, World.initial⟩
    let calls : List HandleCall := [.write [.string "ab"], .read [.string "*a"], .close [], .read []]
    ∃ r s₁, run .openFile [.string "f", .string "w+"] s = .ok [.userdata r] s₁ ∧
      HandleCall.AllSettled r calls s₁ ∧
      (HandleCall.runAll r calls s₁).1 =
        [some [.userdata r], some [.string ""], some [.boolean true], none] := by
  intro s calls
  have hnode : (FileSystem.initial.openNode "f" ⟨true, true, false, true, true⟩).isOk = true := by
    cbv
  rcases hopen : FileSystem.initial.openNode "f" ⟨true, true, false, true, true⟩ with e | ⟨n, files⟩
  · rw [hopen] at hnode
    cases hnode
  obtain ⟨r, s₁, hrun, hholds, -⟩ := openFile_of_ok (s := s) openMode_w_plus hopen
  have hsettled : HandleCall.AllSettled r calls s₁ := by
    refine ⟨.inr fun f hf ↦ ?_, trivial, trivial, trivial, trivial⟩
    obtain rfl := FileHandle.opened.inj (hf.eq hholds)
    rfl
  exact ⟨r, s₁, hrun, hsettled,
    (updates_agree FileSystem.sound_initial .emptied hrun hsettled).1⟩

/-- Where a line has been read, with what is behind it read ahead, a text is written behind all of
that, not behind the line. -/
theorem updates_read_ahead :
    let files := FileSystem.initial.add "f" "a\nb".toByteArray
    let s : Session := ⟨Machine.initial 200, { World.initial with files }⟩
    let s₁ := (run .openFile [.string "f", .string "r+"]).after s
    let calls : List HandleCall := [.read [], .write [.string "X"]]
    let s₂ := (HandleCall.runAll 0 calls s₁).2
    (run .openFile [.string "f", .string "r+"]).result? s = some [.userdata 0] ∧
      (s.world.files.readFile "f").toOption.map (·.data.toList) = some (bytes "a\nb") ∧
      (s₂.world.files.readFile "f").toOption.map (·.data.toList) = some (bytes "a\nbX") ∧
      (FileState.callAll 0 ⟨bytes "a\nb", 0, false⟩ calls).2.content = bytes "a\nX" ∧
      bytes "a\nbX" ≠ bytes "a\nX" := by
  refine ⟨?_, ?_, ?_, ?_, by decide⟩
  · rw [Run.result?, openFile_apply openMode_r_plus]
    cbv
  · cbv
  · rw [Run.after, openFile_apply openMode_r_plus]
    cbv
  · cbv

end LuaEmbed.Library.Files
