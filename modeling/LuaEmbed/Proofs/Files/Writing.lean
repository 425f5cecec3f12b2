import LuaEmbed.Proofs.Files.Handles
import LuaEmbed.Proofs.Files.Trees

/-!
# Opening, writing and closing

What happens to the tree of files when a handle is opened, written to and closed.  What is written
goes where the handle stands, over what is there; a file that has been emptied holds what has been
written to it since.
-/

namespace LuaEmbed

namespace Metatable

/-- Looking for the metatable of a type creates no userdata and changes nothing outside of the
machine. -/
theorem ofType_apply (name : String) (s : Session) :
    ∃ r s', ofType name s = .ok r s' ∧ s'.world = s.world ∧
      s'.machine.userdata = s.machine.userdata ∧ s'.machine.input = s.machine.input := by
  obtain ⟨v, hv⟩ : ∃ v, Heap.getStr s.machine.registry name s = .ok v s := ⟨_, rfl⟩
  have hregistry : Run.machine Machine.registry s = .ok s.machine.registry s := rfl
  rw [ofType, Run.bind_of_ok hregistry, Run.bind_of_ok hv]
  cases v <;> exact ⟨_, _, rfl, rfl, rfl, rfl⟩

end Metatable

namespace Library.Files

open Text (bytes)

variable {s s' : Session} {r : Ref} {path name : String} {args : Arguments} {texts : List String}
  {f : OpenFile} {h : FileHandle} {content : ByteArray} {mode : FileSystem.OpenMode} {n : NodeId}
  {files : FileSystem}

/-! ## Opening -/

theorem openMode_r : openMode? "r" = some ⟨true, false, false, false, false⟩ := by
  simp [openMode?, modes]

theorem openMode_w : openMode? "w" = some ⟨false, true, false, true, true⟩ := by
  simp [openMode?, modes]

theorem newHandle_apply (h : FileHandle) (s : Session) :
    ∃ r s', newHandle h s = .ok (.userdata r) s' ∧ Holds s' r h ∧ s'.world = s.world ∧
      s'.machine.input = s.machine.input := by
  obtain ⟨metatable, s', htype, hworld, -, hinput⟩ := Metatable.ofType_apply handleType s
  refine ⟨s'.machine.userdata.size, _, Run.bind_of_ok htype, ⟨some metatable, ?_⟩, hworld, hinput⟩
  exact Array.getElem?_push_size

/-- Opening a file in some mode. -/
theorem openFile_apply (hmode : openMode? name = some mode) (path : String) (s : Session) :
    run .openFile [.string path, .string name] s =
      match s.world.files.openNode path mode with
      | .ok (n, files) =>
        (List.singleton <$> newHandle (.opened (.ofNode n mode)))
          { s with world := { s.world with files } }
      | .error e => .ok [.nil, .string (path ++ ": " ++ e.message)] s := by
  have hpath : Arguments.check [.string path, .string name] .string 1 s = .ok path s := rfl
  have hname : Arguments.opt [.string path, .string name] .string 2 "r" s = .ok name s := rfl
  have hfiles : Run.world World.files s = .ok s.world.files s := rfl
  refine (Run.bind_of_ok hpath).trans ((Run.bind_of_ok hname).trans ?_)
  rw [hmode]
  refine (Run.bind_of_ok hfiles).trans ?_
  rcases s.world.files.openNode path mode with e | ⟨n, files⟩
  · rfl
  · rfl

/-- A file that can be opened is opened, with the handle at its beginning. -/
theorem openFile_of_ok (hmode : openMode? name = some mode)
    (hopen : s.world.files.openNode path mode = .ok (n, files)) :
    ∃ r s', run .openFile [.string path, .string name] s = .ok [.userdata r] s' ∧
      Holds s' r (.opened (.ofNode n mode)) ∧ s'.world.files = files := by
  obtain ⟨r, s', hnew, hholds, hworld, -⟩ := newHandle_apply (.opened (.ofNode n mode))
    { s with world := { s.world with files } }
  refine ⟨r, s', ?_, hholds, congrArg World.files hworld⟩
  rw [openFile_apply hmode, hopen]
  exact (Run.bind_of_ok hnew : (newHandle _ >>= fun v ↦ pure [v]) _ = _)

/-- What has been opened could be opened. -/
theorem openNode_of_openFile (hmode : openMode? name = some mode)
    (hopen : run .openFile [.string path, .string name] s = .ok [.userdata r] s') :
    ∃ n, s.world.files.openNode path mode = .ok (n, s'.world.files) ∧
      Holds s' r (.opened (.ofNode n mode)) := by
  rcases hnode : s.world.files.openNode path mode with e | ⟨n, files⟩
  · rw [openFile_apply hmode, hnode] at hopen
    exact nomatch hopen
  · obtain ⟨r', s'', hopen', hholds, rfl⟩ := openFile_of_ok hmode hnode
    rw [hopen] at hopen'
    cases hopen'
    exact ⟨n, rfl, hholds⟩

/-- A file is left to a handle that has been opened to read it. -/
theorem exists_openFile_read (hmode : openMode? name = some mode) (hread : mode.read = true)
    (hcreate : mode.create = false) (htruncate : mode.truncate = false)
    (hcontent : s.world.files.readFile path = .ok content) :
    ∃ r s', run .openFile [.string path, .string name] s = .ok [.userdata r] s' ∧
      (Reader.handle r).Left content.data.toList s' := by
  obtain ⟨n, hopen, -, hnode⟩ := FileSystem.openNode_of_readFile hcontent hcreate htruncate
  obtain ⟨r, s', hrun, hholds, hfiles⟩ := openFile_of_ok hmode hopen
  exact ⟨r, s', hrun, .inl ⟨_, content, hholds, hread, by rw [hfiles]; exact hnode,
    Nat.zero_le _, rfl⟩⟩

/-! ## Writing -/

theorem joinTexts_eq {vs : Arguments} (h : vs.mapM Value.toText? = some texts) (k : Nat)
    (joined : String) : joinTexts k joined vs = pure (joined ++ String.join texts) := by
  induction vs generalizing k joined texts with
  | nil =>
      obtain rfl := Option.some.inj h
      exact congrArg pure String.append_empty.symm
  | cons v vs ih =>
      rw [List.mapM_cons] at h
      obtain ⟨x, hv, h⟩ := Option.bind_eq_some_iff.1 h
      obtain ⟨later, hlater, h⟩ := Option.bind_eq_some_iff.1 h
      obtain rfl := Option.some.inj h
      rw [joinTexts, hv]
      dsimp only
      rw [ih hlater, String.join_cons, String.append_assoc]

/-- What is written stands between what was before it and what is left behind it. -/
theorem toList_overwrite {k : Nat} (hk : k ≤ content.size) (new : ByteArray) :
    (FileSystem.overwrite content k new).data.toList =
      content.data.toList.take k ++ new.data.toList ++
        content.data.toList.drop (k + new.size) := by
  have hsize : content.data.toList.length = content.size := rfl
  rw [FileSystem.overwrite]
  split
  · next hend =>
    obtain rfl := beq_iff_eq.1 hend
    rw [← hsize, List.take_length, List.drop_of_length_le (Nat.le_add_right ..), List.append_nil,
      ByteArray.data_append, Array.toList_append]
  · rw [if_neg (Nat.not_lt.2 hk), ByteArray.data_append, ByteArray.data_append,
      Array.toList_append, Array.toList_append, ByteArray.data_extract, ByteArray.data_extract,
      Array.toList_extract, Array.toList_extract, List.extract_eq_take_drop,
      List.extract_eq_take_drop, List.drop_zero, Nat.sub_zero, ← hsize, ← List.length_drop,
      List.take_length]

theorem overwrite_end (content new : ByteArray) :
    FileSystem.overwrite content content.size new = content ++ new := by
  rw [FileSystem.overwrite, if_pos (beq_self_eq_true _)]

theorem overwrite_empty {k : Nat} (hk : k ≤ content.size) :
    FileSystem.overwrite content k ByteArray.empty = content := by
  refine ByteArray.ext (Array.toList_inj.1 ?_)
  have hnone : ByteArray.empty.data.toList = [] := rfl
  rw [toList_overwrite hk, hnone, List.append_nil]
  exact List.take_append_drop ..

/-- An open file after bytes have been written to it: it stands behind them. -/
def advance (f : OpenFile) (k : Nat) : OpenFile :=
  { f with place := ⟨f.place.ahead, f.place.place + k⟩ }

/-- The session after bytes have been written through a handle where it stands. -/
def written (s : Session) (r : Ref) (f : OpenFile) (new : ByteArray) : Session :=
  replaceHandle
    { s with
      world := { s.world with files := s.world.files.write f.node f.place.place new } }
    r (.opened (advance f new.size))

theorem writeText_opened (r : Ref) (hwrite : f.mode.write = true) (happend : f.mode.append = false)
    {u : String} (hsome : u ≠ "") (s : Session) :
    writeText r (.opened f) u s = .ok none (written s r f u.toByteArray) := by
  have hempty : u.isEmpty = false := by
    rw [Bool.eq_false_iff, ne_eq, String.isEmpty_iff]
    exact hsome
  have hbytes : u.toByteArray.isEmpty = false := by
    rw [Bool.eq_false_iff, ne_eq, ByteArray.isEmpty, beq_iff_eq]
    exact mt String.utf8ByteSize_eq_zero_iff.1 hsome
  have hfile : f.write s.world.files u.toByteArray =
      .ok (s.world.files.write f.node f.place.place u.toByteArray,
        advance f u.toByteArray.size) := by
    rw [OpenFile.write, hbytes, hwrite, happend]
    rfl
  have hfiles : Run.world World.files s = .ok s.world.files s := rfl
  rw [writeText, hempty]
  refine (Run.bind_of_ok hfiles).trans ?_
  rw [hfile]
  rfl

/-- Writing through the handle of an open file puts the texts over its content, where it stands, and
loses nothing else of the tree. -/
theorem Holds.handleWrite_opened (hs : Holds s r (.opened f)) (hwrite : f.mode.write = true)
    (happend : f.mode.append = false) (hcontent : s.world.files.content? f.node = some content)
    (hplace : f.place.place ≤ content.size) (htexts : args.mapM Value.toText? = some texts) :
    ∃ s', run .handleWrite (.userdata r :: args) s = .ok [.userdata r] s' ∧
      Holds s' r (.opened (advance f (String.join texts).utf8ByteSize)) ∧
      s'.world.files.content? f.node =
        some (FileSystem.overwrite content f.place.place (String.join texts).toByteArray) ∧
      s.world.files.Extends s'.world.files ∧
      (s.world.files.Sound → s'.world.files.Sound) := by
  have htext : joinTexts 2 "" args = pure (String.join texts) := by
    rw [joinTexts_eq htexts, String.empty_append]
  obtain ⟨answer, hrun, hanswer⟩ : ∃ answer : Option FileFault → Run Arguments,
      run .handleWrite (.userdata r :: args) s =
        (writeText r (.opened f) (String.join texts) >>= answer) s ∧
      answer none = pure [.userdata r] :=
    ⟨_, (Run.bind_of_ok (hs.checkHandle_apply nofun args)).trans
      (Run.bind_of_ok (congrFun htext s)), rfl⟩
  rw [hrun]
  by_cases hnone : String.join texts = ""
  · have hwritten : writeText r (.opened f) (String.join texts) s = .ok none s := by
      rw [hnone]
      rfl
    rw [Run.bind_of_ok hwritten, hanswer, hnone]
    refine ⟨s, rfl, hs, ?_, .refl _, id⟩
    rw [hcontent]
    exact congrArg some (overwrite_empty hplace).symm
  · rw [Run.bind_of_ok (writeText_opened r hwrite happend hnone s), hanswer]
    exact ⟨_, rfl, Holds.replace hs _, FileSystem.content?_write hcontent .., .write .., fun h ↦
      h.write ..⟩

/-- Closing the handle of an open file changes nothing else. -/
theorem Holds.handleClose_opened (hs : Holds s r (.opened f)) (args : Arguments) :
    run .handleClose (.userdata r :: args) s = .ok [.boolean true] (replaceHandle s r .closed) :=
  Run.bind_of_ok (hs.checkHandle_apply nofun args)

/-! ## Files that are written from the beginning -/

/-- The file that a path leads to has a content, and the handle of a userdata stands at its end, to
write more. -/
def AtEnd (s : Session) (r : Ref) (path : String) (content : ByteArray) : Prop :=
  s.world.files.Sound ∧
    ∃ f, Holds s r (.opened f) ∧ f.mode.write = true ∧ f.mode.append = false ∧
      f.place.place = content.size ∧ s.world.files.find path = .ok f.node ∧
      s.world.files.content? f.node = some content

/-- A file that has been opened to be written anew is empty. -/
theorem atEnd_openFile (hs : s.world.files.Sound) (hmode : openMode? name = some mode)
    (hwrite : mode.write = true) (happend : mode.append = false) (htruncate : mode.truncate = true)
    (hopen : run .openFile [.string path, .string name] s = .ok [.userdata r] s') :
    AtEnd s' r path ByteArray.empty := by
  obtain ⟨n, hnode, hholds⟩ := openNode_of_openFile hmode hopen
  obtain ⟨hsound, hfind⟩ := hs.find_openNode hnode
  exact ⟨hsound, _, hholds, hwrite, happend, rfl, hfind,
    hs.content_openNode hnode hwrite htruncate⟩

theorem AtEnd.write (h : AtEnd s r path content) (htexts : args.mapM Value.toText? = some texts) :
    ∃ s', run .handleWrite (.userdata r :: args) s = .ok [.userdata r] s' ∧
      AtEnd s' r path (content ++ (String.join texts).toByteArray) := by
  obtain ⟨hsound, f, hs, hwrite, happend, hplace, hfind, hcontent⟩ := h
  obtain ⟨s', hrun, hs', hcontent', hextends, hsound'⟩ :=
    hs.handleWrite_opened hwrite happend hcontent (Nat.le_of_eq hplace) htexts
  rw [hplace, overwrite_end] at hcontent'
  refine ⟨s', hrun, hsound' hsound, _, hs', hwrite, happend, ?_, hextends.find hsound hfind,
    hcontent'⟩
  rw [ByteArray.size_append, ← hplace]
  rfl

/-- Calls that write one after another put all their texts behind the content. -/
theorem AtEnd.writes (h : AtEnd s r path content) {calls : List Arguments}
    {texts : List (List String)} (htexts : calls.mapM (·.mapM Value.toText?) = some texts) :
    ∃ s', calls.mapM (fun args ↦ run .handleWrite (.userdata r :: args)) s =
        .ok (calls.map fun _ ↦ [.userdata r]) s' ∧
      AtEnd s' r path (content ++ (String.join texts.flatten).toByteArray) := by
  induction calls generalizing s content texts with
  | nil =>
      obtain rfl : texts = [] := (Option.some.inj htexts).symm
      exact ⟨s, rfl, by rwa [List.flatten_nil, String.join_nil, String.toByteArray_empty,
        ByteArray.append_empty]⟩
  | cons args calls ih =>
      rw [List.mapM_cons] at htexts
      obtain ⟨first, hfirst, htexts⟩ := Option.bind_eq_some_iff.1 htexts
      obtain ⟨later, hlater, htexts⟩ := Option.bind_eq_some_iff.1 htexts
      obtain rfl := Option.some.inj htexts
      obtain ⟨s₁, hwrite, h₁⟩ := h.write hfirst
      obtain ⟨s', hwrites, h'⟩ := ih h₁ hlater
      refine ⟨s', Run.mapM_cons_of_ok hwrite hwrites, ?_⟩
      rwa [ByteArray.append_assoc, ← String.toByteArray_append, ← String.join_append] at h'

theorem AtEnd.close (h : AtEnd s r path content) (args : Arguments) :
    ∃ s', run .handleClose (.userdata r :: args) s = .ok [.boolean true] s' ∧
      s'.world.files.readFile path = .ok content := by
  obtain ⟨-, f, hs, -, -, -, hfind, hcontent⟩ := h
  exact ⟨_, hs.handleClose_opened args, FileSystem.readFile_eq_ok.2 ⟨f.node, hfind, hcontent⟩⟩

end Library.Files

end LuaEmbed
