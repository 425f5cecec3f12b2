import LuaEmbed.World.FileSystem

/-!
# Trees of files

In a sound tree every node that a directory names is there.  All operations keep a tree sound.
Opening a file and writing to it lose no entry, so that the paths that led somewhere lead there still.
-/

namespace LuaEmbed.FileSystem

variable {fs fs' : FileSystem} {n m dir parent : NodeId} {path name : String} {a : Approach}
  {es : List (String × NodeId)} {content : ByteArray}

/-! ## Sequences -/

section Sequences

variable {α β : Type} {x : Except FileFault α} {f : α → Except FileFault β} {y : β}

/-- A sequence succeeds exactly when its parts do, one after the other. -/
theorem bind_eq_ok : x >>= f = .ok y ↔ ∃ a, x = .ok a ∧ f a = .ok y := by
  cases x with
  | error e => exact ⟨nofun, nofun⟩
  | ok a => exact ⟨fun h ↦ ⟨a, rfl, h⟩, fun ⟨_, ha, h⟩ ↦ Except.ok.inj ha ▸ h⟩

theorem bind_of_ok {a : α} (h : x = .ok a) : x >>= f = f a := by
  rw [h]
  rfl

/-- What is guarded against does not hold where a sequence goes on. -/
theorem guard_eq_ok {c : Prop} [Decidable c] {e : FileFault} {f : Unit → Except FileFault β} :
    (if c then Except.error e >>= f else f ()) = .ok y ↔ ¬c ∧ f () = .ok y := by
  by_cases h : c
  · rw [if_pos h]
    exact ⟨nofun, fun ⟨hn, _⟩ ↦ absurd h hn⟩
  · rw [if_neg h]
    exact ⟨fun hy ↦ ⟨h, hy⟩, And.right⟩

end Sequences

/-! ## Nodes -/

theorem isDirectory_iff :
    fs.isDirectory n = true ↔ ∃ parent es, fs.nodes[n]? = some (.directory parent es) := by
  rw [isDirectory, entries?]
  rcases fs.nodes[n]? with _ | ⟨content⟩ | ⟨parent, es⟩
  · exact ⟨nofun, nofun⟩
  · exact ⟨nofun, nofun⟩
  · exact ⟨fun _ ↦ ⟨parent, es, rfl⟩, fun _ ↦ rfl⟩

theorem entries?_eq_some_iff :
    fs.entries? n = some es ↔ ∃ parent, fs.nodes[n]? = some (.directory parent es) := by
  rw [entries?]
  rcases fs.nodes[n]? with _ | ⟨content⟩ | ⟨parent, es'⟩
  · exact ⟨nofun, nofun⟩
  · exact ⟨nofun, nofun⟩
  · refine ⟨fun h ↦ ⟨parent, by rw [Option.some.inj h]⟩, fun ⟨_, h⟩ ↦ ?_⟩
    cases h
    rfl

theorem content?_eq_some_iff :
    fs.content? n = some content ↔ fs.nodes[n]? = some (.file content) := by
  rw [content?]
  rcases fs.nodes[n]? with _ | ⟨content'⟩ | ⟨parent, es⟩
  · exact ⟨nofun, nofun⟩
  · exact ⟨fun h ↦ by rw [Option.some.inj h], fun h ↦ by cases h; rfl⟩
  · exact ⟨nofun, nofun⟩

theorem isDirectory_of_content? (h : fs.content? n = some content) : fs.isDirectory n = false := by
  rw [Bool.eq_false_iff]
  intro hdir
  obtain ⟨parent, es, hn⟩ := isDirectory_iff.1 hdir
  rw [content?_eq_some_iff.1 h] at hn
  exact nomatch hn

theorem lt_of_isDirectory (h : fs.isDirectory n = true) : n < fs.nodes.size := by
  obtain ⟨parent, es, hn⟩ := isDirectory_iff.1 h
  exact (Array.getElem?_eq_some_iff.1 hn).1

/-! ## Soundness -/

/-- The node above a directory and those of its entries are there, and the root and the current
directory are directories. -/
structure Sound (fs : FileSystem) : Prop where
  root : fs.isDirectory fs.root = true
  current : fs.isDirectory fs.current = true
  named {n parent : NodeId} {es : List (String × NodeId)} :
    fs.nodes[n]? = some (.directory parent es) →
      parent < fs.nodes.size ∧ ∀ e ∈ es, e.2 < fs.nodes.size

/-- What keeps a tree sound: directories stay directories, there are no fewer nodes, and what a
directory names anew is there. -/
theorem Sound.of_nodes (h : fs.Sound) (hroot : fs'.root = fs.root)
    (hcurrent : fs'.current = fs.current) (hsize : fs.nodes.size ≤ fs'.nodes.size)
    (hdir : ∀ n, fs.isDirectory n = true → fs'.isDirectory n = true)
    (hnew : ∀ (n parent : NodeId) (es : List (String × NodeId)),
      fs'.nodes[n]? = some (.directory parent es) →
        fs.nodes[n]? = some (.directory parent es) ∨
          parent < fs'.nodes.size ∧ ∀ e ∈ es, e.2 < fs'.nodes.size) : fs'.Sound where
  root := by
    rw [hroot]
    exact hdir _ h.root
  current := by
    rw [hcurrent]
    exact hdir _ h.current
  named hn := by
    rcases hnew _ _ _ hn with hold | hnew
    · obtain ⟨hparent, hes⟩ := h.named hold
      exact ⟨Nat.lt_of_lt_of_le hparent hsize, fun e he ↦ Nat.lt_of_lt_of_le (hes e he) hsize⟩
    · exact hnew

/-- One node may change into one of its sort. -/
theorem Sound.modify (h : fs.Sound) {f : Node → Node}
    (hfile : ∀ content, fs.nodes[n]? = some (.file content) →
      ∃ content', f (.file content) = .file content')
    (hdir : ∀ parent es, fs.nodes[n]? = some (.directory parent es) →
      ∃ parent' es', f (.directory parent es) = .directory parent' es' ∧
        parent' < fs.nodes.size ∧ ∀ e ∈ es', e.2 < fs.nodes.size) :
    Sound { fs with nodes := fs.nodes.modify n f } := by
  refine h.of_nodes rfl rfl (Nat.le_of_eq Array.size_modify.symm) (fun m hm ↦ ?_)
    fun m parent es hnode ↦ ?_
  · obtain ⟨parent, es, hnode⟩ := isDirectory_iff.1 hm
    refine isDirectory_iff.2 ?_
    dsimp only
    rw [Array.getElem?_modify]
    split
    · next heq =>
      subst heq
      obtain ⟨parent', es', hf, -⟩ := hdir _ _ hnode
      exact ⟨parent', es', by rw [hnode, Option.map_some, hf]⟩
    · exact ⟨parent, es, hnode⟩
  · dsimp only at hnode ⊢
    rw [Array.getElem?_modify] at hnode
    split at hnode
    · next heq =>
      subst heq
      rcases hold : fs.nodes[n]? with _ | ⟨content⟩ | ⟨parent', es'⟩
      · rw [hold] at hnode
        exact nomatch hnode
      · obtain ⟨content', hf⟩ := hfile _ hold
        rw [hold, Option.map_some, hf] at hnode
        exact nomatch hnode
      · obtain ⟨parent'', es'', hf, hnamed⟩ := hdir _ _ hold
        rw [hold, Option.map_some, hf] at hnode
        cases hnode
        rw [Array.size_modify]
        exact .inr hnamed
    · exact .inl hnode

theorem Sound.modifyEntries (h : fs.Sound) {f : List (String × NodeId) → List (String × NodeId)}
    (hf : ∀ es, ∀ e ∈ f es, e ∈ es ∨ e.2 < fs.nodes.size) : (fs.modifyEntries n f).Sound :=
  h.modify (fun content _ ↦ ⟨content, rfl⟩) fun parent es hn ↦
    ⟨parent, f es, rfl, (h.named hn).1, fun e he ↦ (hf es e he).elim ((h.named hn).2 e) id⟩

theorem Sound.unlink (h : fs.Sound) (dir : NodeId) (name : String) : (fs.unlink dir name).Sound :=
  h.modifyEntries fun _ _ he ↦ .inl ((List.mem_filter.1 he).1)

theorem Sound.link (h : fs.Sound) (hn : n < fs.nodes.size) (dir : NodeId) (name : String) :
    (fs.link dir name n).Sound := by
  refine h.modifyEntries fun es e he ↦ ?_
  rcases List.mem_append.1 he with he | he
  · exact .inl ((List.mem_filter.1 he).1)
  · rw [List.mem_singleton.1 he]
    exact .inr hn

theorem Sound.setParent (h : fs.Sound) (hparent : parent < fs.nodes.size) (n : NodeId) :
    (fs.setParent n parent).Sound :=
  h.modify (fun content _ ↦ ⟨content, rfl⟩) fun _ es hn ↦
    ⟨parent, es, rfl, hparent, (h.named hn).2⟩

theorem Sound.setContent (h : fs.Sound) (hn : fs.isDirectory n = false) (content : ByteArray) :
    (fs.setContent n content).Sound := by
  refine h.modify (fun _ _ ↦ ⟨content, rfl⟩) fun parent es hnode ↦ ?_
  rw [isDirectory_iff.2 ⟨parent, es, hnode⟩] at hn
  exact nomatch hn

theorem Sound.write (h : fs.Sound) (n : NodeId) (offset : Nat) (bytes : ByteArray) :
    (fs.write n offset bytes).Sound :=
  h.modify (fun content _ ↦ ⟨overwrite content offset bytes, rfl⟩) fun parent es hn ↦
    ⟨parent, es, rfl, h.named hn⟩

/-- A node that names nothing but what is there may be added. -/
theorem Sound.create (h : fs.Sound) {node : Node}
    (hnode : ∀ (parent : NodeId) (es : List (String × NodeId)), node = .directory parent es →
      parent < fs.nodes.size ∧ es = []) (dir : NodeId) (name : String) :
    (fs.create dir name node).2.Sound := by
  have hsize : (fs.nodes.push node).size = fs.nodes.size + 1 := Array.size_push _
  have hpush : Sound { fs with nodes := fs.nodes.push node } := by
    refine h.of_nodes rfl rfl (by rw [hsize]; exact Nat.le_succ _) (fun m hm ↦ ?_)
      fun m parent es hm ↦ ?_
    · obtain ⟨parent, es, hold⟩ := isDirectory_iff.1 hm
      refine isDirectory_iff.2 ⟨parent, es, ?_⟩
      rw [Array.getElem?_push, if_neg (Nat.ne_of_lt (lt_of_isDirectory hm)), hold]
    · dsimp only at hm ⊢
      rw [Array.getElem?_push] at hm
      split at hm
      · obtain ⟨hparent, rfl⟩ := hnode parent es (Option.some.inj hm)
        rw [hsize]
        exact .inr ⟨Nat.lt_succ_of_lt hparent, nofun⟩
      · exact .inl hm
  exact hpush.link (by rw [hsize]; exact Nat.lt_succ_self _) dir name

theorem Sound.createFile (h : fs.Sound) (content : ByteArray) (dir : NodeId) (name : String) :
    (fs.create dir name (.file content)).2.Sound := by
  refine h.create (fun _ _ hnode ↦ ?_) dir name
  exact nomatch hnode

theorem Sound.createDirectory (h : fs.Sound) (hparent : parent < fs.nodes.size) (dir : NodeId)
    (name : String) : (fs.create dir name (.directory parent [])).2.Sound := by
  refine h.create (fun _ _ hnode ↦ ?_) dir name
  obtain ⟨rfl, rfl⟩ := Node.directory.inj hnode
  exact ⟨hparent, rfl⟩

theorem sound_initial : initial.Sound where
  root := rfl
  current := rfl
  named {n parent es} hn := by
    rcases n with _ | _ | _ | n
    · obtain ⟨rfl, rfl⟩ := Node.directory.inj (Option.some.inj hn)
      exact ⟨by decide, by decide⟩
    · obtain ⟨rfl, rfl⟩ := Node.directory.inj (Option.some.inj hn)
      exact ⟨by decide, nofun⟩
    · obtain ⟨rfl, rfl⟩ := Node.directory.inj (Option.some.inj hn)
      exact ⟨by decide, nofun⟩
    · exact nomatch hn

/-! ## Paths -/

theorem entry?_eq_ok_some (h : fs.entry? dir name = .ok (some n)) :
    ∃ parent es, fs.nodes[dir]? = some (.directory parent es) ∧
      name.utf8ByteSize ≤ maxName ∧ es.lookup name = some n := by
  unfold entry? at h
  split at h
  · next es hes =>
    obtain ⟨parent, hdir⟩ := entries?_eq_some_iff.1 hes
    split at h
    · exact nomatch h
    · next hsize => exact ⟨parent, es, hdir, Nat.not_lt.1 hsize, Except.ok.inj h⟩
  · exact nomatch h

theorem entry?_eq_ok_none (h : fs.entry? dir name = .ok none) :
    ∃ parent es, fs.nodes[dir]? = some (.directory parent es) ∧
      name.utf8ByteSize ≤ maxName ∧ es.lookup name = none := by
  unfold entry? at h
  split at h
  · next es hes =>
    obtain ⟨parent, hdir⟩ := entries?_eq_some_iff.1 hes
    split at h
    · exact nomatch h
    · next hsize => exact ⟨parent, es, hdir, Nat.not_lt.1 hsize, Except.ok.inj h⟩
  · exact nomatch h

theorem mem_of_lookup (h : es.lookup name = some n) : (name, n) ∈ es := by
  obtain ⟨front, back, rfl, -⟩ := List.lookup_eq_some_iff.1 h
  exact List.mem_append_right _ List.mem_cons_self

/-- A name that resolves in a directory leads to a node. -/
theorem Sound.resolve_lt (h : fs.Sound) (hdir : fs.isDirectory dir = true) {last : LastName}
    (hn : fs.resolve dir last = .ok (some n)) : n < fs.nodes.size := by
  cases last with
  | root | here =>
      obtain rfl := Option.some.inj (Except.ok.inj hn)
      exact lt_of_isDirectory hdir
  | above =>
      obtain rfl := Option.some.inj (Except.ok.inj hn)
      obtain ⟨parent, es, hnode⟩ := isDirectory_iff.1 hdir
      rw [FileSystem.above, hnode]
      exact (h.named hnode).1
  | entry name =>
      obtain ⟨parent, es, hnode, -, hlookup⟩ := entry?_eq_ok_some hn
      exact (h.named hnode).2 _ (mem_of_lookup hlookup)

/-- A name on the way leads to a directory, from which the way goes on. -/
theorem follow_cons_eq_ok {asDirectory : Bool} {names : List String} (hnames : names ≠ []) :
    fs.follow asDirectory dir (name :: names) = .ok a ↔
      ∃ n, fs.resolve dir (LastName.ofName name) = .ok (some n) ∧ fs.isDirectory n = true ∧
        fs.follow asDirectory n names = .ok a := by
  rw [follow, bind_eq_ok]
  · constructor
    · rintro ⟨_ | n, hn, h⟩
      · exact nomatch h
      · dsimp only at h
        split at h
        · next hdir => exact ⟨n, hn, hdir, h⟩
        · exact nomatch h
    · rintro ⟨n, hn, hdir, h⟩
      refine ⟨some n, hn, ?_⟩
      dsimp only
      rw [if_pos hdir, h]
  · exact hnames

theorem isDirectory_of_follow {asDirectory : Bool} {names : List String}
    (hdir : fs.isDirectory dir = true) (h : fs.follow asDirectory dir names = .ok a) :
    fs.isDirectory a.dir = true := by
  induction dir, names using follow.induct with
  | case1 | case2 =>
      obtain rfl := Except.ok.inj h
      exact hdir
  | case3 dir name names hnames ih =>
      obtain ⟨m, -, hm, hrest⟩ := (follow_cons_eq_ok hnames).1 h
      exact ih m hm hrest

/-- A path is approached from the root or from the current directory. -/
theorem approach_eq_ok (h : fs.approach path = .ok a) :
    path.isEmpty = false ∧ path.utf8ByteSize ≤ maxPath ∧
      fs.follow (path.endsWith "/") (if path.startsWith "/" then fs.root else fs.current)
        ((path.splitOn "/").filter (!·.isEmpty)) = .ok a := by
  rw [approach] at h
  split at h
  · exact nomatch h
  · next hsome =>
    split at h
    · exact nomatch h
    · next hsize => exact ⟨Bool.eq_false_iff.2 hsome, Nat.not_lt.1 hsize, h⟩

theorem Sound.isDirectory_start (h : fs.Sound) (path : String) :
    fs.isDirectory (if path.startsWith "/" then fs.root else fs.current) = true := by
  split
  · exact h.root
  · exact h.current

theorem Sound.isDirectory_of_approach (h : fs.Sound) (ha : fs.approach path = .ok a) :
    fs.isDirectory a.dir = true :=
  isDirectory_of_follow (h.isDirectory_start path) (approach_eq_ok ha).2.2

/-- What a path leads to is what its approach arrives at. -/
theorem find_eq_ok :
    fs.find path = .ok n ↔ checkText path = .ok () ∧ ∃ a, fs.approach path = .ok a ∧
      fs.arrive a = .ok (some n) ∧ (a.asDirectory = true → fs.isDirectory n = true) := by
  rw [find, bind_eq_ok]
  constructor
  · rintro ⟨⟨⟩, ht, h⟩
    obtain ⟨a, ha, h⟩ := bind_eq_ok.1 h
    obtain ⟨_ | m, hm, h⟩ := bind_eq_ok.1 h
    · exact nomatch h
    · dsimp only at h
      split at h
      · exact nomatch h
      · next hdir =>
        obtain rfl := Except.ok.inj h
        rw [Bool.and_eq_true, Bool.not_eq_true', not_and, Bool.not_eq_false] at hdir
        exact ⟨ht, a, ha, hm, hdir⟩
  · rintro ⟨ht, a, ha, hm, hdir⟩
    refine ⟨(), ht, bind_eq_ok.2 ⟨a, ha, bind_eq_ok.2 ⟨some n, hm, ?_⟩⟩⟩
    dsimp only
    rw [if_neg]
    · rfl
    · rwa [Bool.and_eq_true, Bool.not_eq_true', not_and, Bool.not_eq_false]

/-! ## Trees that grow -/

/-- A tree has all directories of another one, with the same ones above them and all their entries. -/
structure Extends (fs fs' : FileSystem) : Prop where
  root : fs'.root = fs.root
  current : fs'.current = fs.current
  directory {n parent : NodeId} {es : List (String × NodeId)} :
    fs.nodes[n]? = some (.directory parent es) →
      ∃ es', fs'.nodes[n]? = some (.directory parent es') ∧
        ∀ {name m}, es.lookup name = some m → es'.lookup name = some m

namespace Extends

theorem refl (fs : FileSystem) : fs.Extends fs := ⟨rfl, rfl, fun hn ↦ ⟨_, hn, id⟩⟩

theorem isDirectory (h : fs.Extends fs') (hn : fs.isDirectory n = true) :
    fs'.isDirectory n = true := by
  obtain ⟨parent, es, hnode⟩ := isDirectory_iff.1 hn
  obtain ⟨es', hnode', -⟩ := h.directory hnode
  exact isDirectory_iff.2 ⟨parent, es', hnode'⟩

theorem resolve (h : fs.Extends fs') (hdir : fs.isDirectory dir = true) {last : LastName}
    (hn : fs.resolve dir last = .ok (some n)) : fs'.resolve dir last = .ok (some n) := by
  cases last with
  | root | here => exact hn
  | above =>
      obtain ⟨parent, es, hnode⟩ := isDirectory_iff.1 hdir
      obtain ⟨es', hnode', -⟩ := h.directory hnode
      rw [← hn, FileSystem.resolve, FileSystem.resolve, FileSystem.above, FileSystem.above, hnode,
        hnode']
  | entry name =>
      obtain ⟨parent, es, hnode, hsize, hlookup⟩ := entry?_eq_ok_some hn
      obtain ⟨es', hnode', hgrow⟩ := h.directory hnode
      rw [FileSystem.resolve, entry?, entries?_eq_some_iff.2 ⟨parent, hnode'⟩]
      dsimp only
      rw [if_neg (Nat.not_lt.2 hsize), hgrow hlookup]

theorem follow (h : fs.Extends fs') {asDirectory : Bool} {names : List String}
    (hdir : fs.isDirectory dir = true) (hfollow : fs.follow asDirectory dir names = .ok a) :
    fs'.follow asDirectory dir names = .ok a := by
  induction dir, names using follow.induct with
  | case1 | case2 => exact hfollow
  | case3 dir name names hnames ih =>
      obtain ⟨m, hresolve, hm, hrest⟩ := (follow_cons_eq_ok hnames).1 hfollow
      exact (follow_cons_eq_ok hnames).2
        ⟨m, h.resolve hdir hresolve, h.isDirectory hm, ih m hm hrest⟩

theorem approach (h : fs.Extends fs') (hs : fs.Sound) (ha : fs.approach path = .ok a) :
    fs'.approach path = .ok a := by
  obtain ⟨hsome, hsize, hfollow⟩ := approach_eq_ok ha
  rw [FileSystem.approach, hsome, if_neg Bool.false_ne_true, if_neg (Nat.not_lt.2 hsize), h.root,
    h.current]
  exact h.follow (hs.isDirectory_start path) hfollow

theorem find (h : fs.Extends fs') (hs : fs.Sound) (hn : fs.find path = .ok n) :
    fs'.find path = .ok n := by
  obtain ⟨ht, a, ha, harrive, hdir⟩ := find_eq_ok.1 hn
  exact find_eq_ok.2 ⟨ht, a, h.approach hs ha, h.resolve (hs.isDirectory_of_approach ha) harrive,
    fun hasDirectory ↦ h.isDirectory (hdir hasDirectory)⟩

/-- Files may change their contents. -/
theorem modify (n : NodeId) {f : Node → Node}
    (hf : ∀ (parent : NodeId) (es : List (String × NodeId)),
      fs.nodes[n]? = some (.directory parent es) → f (.directory parent es) = .directory parent es) :
    fs.Extends { fs with nodes := fs.nodes.modify n f } := by
  refine ⟨rfl, rfl, fun {m parent es} hm ↦ ⟨es, ?_, id⟩⟩
  dsimp only
  rw [Array.getElem?_modify]
  split
  · next heq =>
    subst heq
    rw [hm, Option.map_some, hf parent es hm]
  · exact hm

theorem write (n : NodeId) (offset : Nat) (bytes : ByteArray) :
    fs.Extends (fs.write n offset bytes) :=
  modify n fun _ _ _ ↦ rfl

theorem setContent (hn : fs.isDirectory n = false) (content : ByteArray) :
    fs.Extends (fs.setContent n content) := by
  refine modify n fun parent es hnode ↦ ?_
  rw [isDirectory_iff.2 ⟨parent, es, hnode⟩] at hn
  exact nomatch hn

end Extends

theorem filter_of_lookup_eq_none (h : es.lookup name = none) : es.filter (·.1 != name) = es :=
  List.filter_eq_self.2 fun e he ↦ by
    rw [bne_comm]
    exact List.lookup_eq_none_iff.1 h e he

section Create

variable {node : Node}

theorem create_nodes (hdir : fs.nodes[dir]? = some (.directory parent es))
    (hname : es.lookup name = none) (m : NodeId) :
    (fs.create dir name node).2.nodes[m]? =
      if m = dir then some (.directory parent (es ++ [(name, fs.nodes.size)]))
      else if m = fs.nodes.size then some node
      else fs.nodes[m]? := by
  have hlt : dir < fs.nodes.size := (Array.getElem?_eq_some_iff.1 hdir).1
  change ((fs.nodes.push node).modify dir _)[m]? = _
  rw [Array.getElem?_modify]
  by_cases hm : m = dir
  · subst hm
    rw [if_pos rfl, if_pos rfl, Array.getElem?_push, if_neg (Nat.ne_of_lt hlt), hdir,
      Option.map_some]
    dsimp only
    rw [filter_of_lookup_eq_none hname]
  · rw [if_neg (Ne.symm hm), if_neg hm, Array.getElem?_push]

theorem create_created (hdir : fs.nodes[dir]? = some (.directory parent es))
    (hname : es.lookup name = none) :
    (fs.create dir name node).2.nodes[fs.nodes.size]? = some node := by
  have hlt : dir < fs.nodes.size := (Array.getElem?_eq_some_iff.1 hdir).1
  rw [create_nodes hdir hname, if_neg (Nat.ne_of_gt hlt), if_pos rfl]

theorem Extends.create (hdir : fs.nodes[dir]? = some (.directory parent es))
    (hname : es.lookup name = none) : fs.Extends (fs.create dir name node).2 := by
  refine ⟨rfl, rfl, fun {m parent' es'} hm ↦ ?_⟩
  have hlt : m < fs.nodes.size := (Array.getElem?_eq_some_iff.1 hm).1
  rw [create_nodes hdir hname]
  split
  · next heq =>
    subst heq
    obtain ⟨rfl, rfl⟩ := Node.directory.inj (Option.some.inj (hdir.symm.trans hm))
    refine ⟨_, rfl, fun hlookup ↦ ?_⟩
    rw [List.lookup_append, hlookup]
    rfl
  · exact ⟨es', by rw [if_neg (Nat.ne_of_lt hlt), hm], id⟩

/-- A name that has been created leads to what was created under it. -/
theorem create_entry? (hdir : fs.nodes[dir]? = some (.directory parent es))
    (hsize : name.utf8ByteSize ≤ maxName) (hname : es.lookup name = none) :
    entry? (fs.create dir name node).2 dir name = .ok (some fs.nodes.size) := by
  have hnode : (fs.create dir name node).2.nodes[dir]? = _ := create_nodes hdir hname dir
  rw [if_pos rfl] at hnode
  unfold entry?
  rw [entries?_eq_some_iff.2 ⟨parent, hnode⟩]
  dsimp only
  rw [if_neg (Nat.not_lt.2 hsize), List.lookup_append, hname, List.lookup_cons_self]
  rfl

end Create

/-! ## Opening -/

/-- What opening what an approach leads to gives: the node, and the tree after it. -/
inductive Opens (fs : FileSystem) (mode : OpenMode) (a : Approach) : NodeId → FileSystem → Prop
  | directory {n : NodeId} (harrive : fs.arrive a = .ok (some n)) (hn : fs.isDirectory n = true)
      (hmode : (mode.write || mode.append) = false) : Opens fs mode a n fs
  | file {n : NodeId} (harrive : fs.arrive a = .ok (some n)) (hn : fs.isDirectory n = false)
      (hfile : a.asDirectory = false) :
      Opens fs mode a n (if mode.truncate then fs.setContent n ByteArray.empty else fs)
  | created {name : String} (harrive : fs.arrive a = .ok none) (hmode : mode.create = true)
      (hlast : a.last = .entry name) (hfile : a.asDirectory = false) :
      Opens fs mode a fs.nodes.size (fs.create a.dir name (.file ByteArray.empty)).2

variable {mode : OpenMode}

theorem openNode_eq_ok (h : fs.openNode path mode = .ok (n, fs')) :
    checkText path = .ok () ∧ ∃ a, fs.approach path = .ok a ∧ fs.Opens mode a n fs' := by
  obtain ⟨⟨⟩, ht, h⟩ := bind_eq_ok.1 h
  obtain ⟨a, ha, h⟩ := bind_eq_ok.1 h
  refine ⟨ht, a, ha, ?_⟩
  obtain ⟨hcreate, h⟩ := guard_eq_ok.1 h
  obtain ⟨_ | m, harrive, h⟩ := bind_eq_ok.1 h
  · dsimp only at h
    split at h
    · next name hmode hlast =>
      rw [hmode, Bool.true_and] at hcreate
      obtain ⟨rfl, rfl⟩ := Prod.mk.inj (Except.ok.inj h)
      exact .created harrive hmode hlast (Bool.eq_false_iff.2 hcreate)
    · exact nomatch h
  · dsimp only at h
    split at h
    · next hm =>
      split at h
      · exact nomatch h
      · next hmode =>
        obtain ⟨rfl, rfl⟩ := Prod.mk.inj (Except.ok.inj h)
        exact .directory harrive hm (Bool.eq_false_iff.2 hmode)
    · next hm =>
      split at h
      · exact nomatch h
      · next hfile =>
        obtain ⟨rfl, rfl⟩ := Prod.mk.inj (Except.ok.inj h)
        exact .file harrive (Bool.eq_false_iff.2 hm) (Bool.eq_false_iff.2 hfile)

/-- A name under which something is created is free. -/
theorem Opens.free {name : String} (harrive : fs.arrive a = .ok none) (hlast : a.last = .entry name) :
    ∃ parent es, fs.nodes[a.dir]? = some (.directory parent es) ∧
      name.utf8ByteSize ≤ maxName ∧ es.lookup name = none := by
  rw [arrive, hlast] at harrive
  exact entry?_eq_ok_none harrive

theorem Opens.extends (h : fs.Opens mode a n fs') : fs.Extends fs' := by
  cases h with
  | directory => exact .refl fs
  | file _ hn =>
      split
      · exact .setContent hn _
      · exact .refl fs
  | created harrive _ hlast =>
      obtain ⟨parent, es, hdir, -, hname⟩ := Opens.free harrive hlast
      exact .create hdir hname

theorem Opens.sound (h : fs.Opens mode a n fs') (hs : fs.Sound) : fs'.Sound := by
  cases h with
  | directory => exact hs
  | file _ hn =>
      split
      · exact hs.setContent hn _
      · exact hs
  | created => exact hs.createFile _ _ _

/-- The path of a file that has been opened leads to it. -/
theorem Sound.find_openNode (hs : fs.Sound) (h : fs.openNode path mode = .ok (n, fs')) :
    fs'.Sound ∧ fs'.find path = .ok n := by
  obtain ⟨ht, a, ha, hopens⟩ := openNode_eq_ok h
  have hextends := hopens.extends
  refine ⟨hopens.sound hs, find_eq_ok.2 ⟨ht, a, hextends.approach hs ha, ?_⟩⟩
  have hdir := hs.isDirectory_of_approach ha
  cases hopens with
  | directory harrive hn => exact ⟨harrive, fun _ ↦ hn⟩
  | file harrive _ hfile => exact ⟨hextends.resolve hdir harrive, fun h ↦ nomatch hfile.symm.trans h⟩
  | created harrive _ hlast hfile =>
      obtain ⟨parent, es, hnode, hsize, hname⟩ := Opens.free harrive hlast
      refine ⟨?_, fun h ↦ nomatch hfile.symm.trans h⟩
      rw [arrive, hlast]
      exact create_entry? hnode hsize hname

/-- What has been opened to be emptied and written to is an empty file. -/
theorem Sound.content_openNode (hs : fs.Sound) (h : fs.openNode path mode = .ok (n, fs'))
    (hwrite : mode.write = true) (htruncate : mode.truncate = true) :
    fs'.content? n = some ByteArray.empty := by
  obtain ⟨ht, a, ha, hopens⟩ := openNode_eq_ok h
  rw [content?_eq_some_iff]
  cases hopens with
  | directory _ _ hmode =>
      rw [hwrite, Bool.true_or] at hmode
      exact nomatch hmode
  | file harrive hn =>
      have hlt := hs.resolve_lt (hs.isDirectory_of_approach ha) harrive
      rw [if_pos htruncate]
      change (fs.nodes.modify n _)[n]? = _
      rw [Array.getElem?_modify, if_pos rfl, Array.getElem?_eq_getElem hlt]
      rfl
  | created harrive _ hlast =>
      obtain ⟨parent, es, hnode, -, hname⟩ := Opens.free harrive hlast
      exact create_created hnode hname

/-! ## Contents -/

theorem readFile_eq_ok :
    fs.readFile path = .ok content ↔ ∃ n, fs.find path = .ok n ∧ fs.content? n = some content := by
  rw [readFile, bind_eq_ok]
  refine exists_congr fun n ↦ and_congr_right fun _ ↦ ?_
  cases fs.content? n with
  | none => exact ⟨nofun, nofun⟩
  | some content' =>
      exact ⟨fun h ↦ congrArg some (Except.ok.inj h), fun h ↦ congrArg Except.ok (Option.some.inj h)⟩

/-- A file that can be read can be opened, if nothing is to be done to it. -/
theorem openNode_of_readFile (h : fs.readFile path = .ok content) (hcreate : mode.create = false)
    (htruncate : mode.truncate = false) :
    ∃ n, fs.openNode path mode = .ok (n, fs) ∧ fs.find path = .ok n ∧
      fs.content? n = some content := by
  obtain ⟨n, hfind, hcontent⟩ := readFile_eq_ok.1 h
  obtain ⟨ht, a, ha, harrive, hdir⟩ := find_eq_ok.1 hfind
  have hn : fs.isDirectory n = false := isDirectory_of_content? hcontent
  refine ⟨n, bind_eq_ok.2 ⟨(), ht, bind_eq_ok.2 ⟨a, ha, ?_⟩⟩, hfind, hcontent⟩
  have hfile : a.asDirectory = false := Bool.eq_false_iff.2 fun hasDirectory ↦
    Bool.eq_false_iff.1 hn (hdir hasDirectory)
  rw [hcreate]
  refine bind_eq_ok.2 ⟨some n, harrive, ?_⟩
  dsimp only
  rw [hn, hfile, htruncate]
  rfl

theorem content?_write (h : fs.content? n = some content) (offset : Nat) (bytes : ByteArray) :
    (fs.write n offset bytes).content? n = some (overwrite content offset bytes) := by
  rw [content?_eq_some_iff]
  change (fs.nodes.modify n _)[n]? = _
  rw [Array.getElem?_modify, if_pos rfl, content?_eq_some_iff.1 h]
  rfl

/-! ## All operations -/

theorem Sound.remove (h : fs.Sound) (hremove : fs.remove path = .ok fs') : fs'.Sound := by
  obtain ⟨⟨⟩, -, hremove⟩ := bind_eq_ok.1 hremove
  obtain ⟨a, -, hremove⟩ := bind_eq_ok.1 hremove
  obtain ⟨found, -, hremove⟩ := bind_eq_ok.1 hremove
  cases found with
  | none => exact nomatch hremove
  | some n =>
      dsimp only at hremove
      split at hremove
      · split at hremove
        · exact nomatch hremove
        · rw [← Except.ok.inj hremove]
          exact h.unlink _ _
      · rw [← Except.ok.inj hremove]
        exact h.unlink _ _
      all_goals exact nomatch hremove

theorem size_modifyEntries (n : NodeId) (f : List (String × NodeId) → List (String × NodeId)) :
    (fs.modifyEntries n f).nodes.size = fs.nodes.size :=
  Array.size_modify

theorem Sound.move (h : fs.Sound) {oldDir newDir : NodeId} {oldName newName : String}
    (hn : n < fs.nodes.size) (hdir : newDir < fs.nodes.size) :
    (fs.move oldDir oldName newDir newName n).Sound := by
  have hsize : (fs.unlink oldDir oldName).nodes.size = fs.nodes.size := size_modifyEntries ..
  have hlinked := (h.unlink oldDir oldName).link (n := n) (by rwa [hsize]) newDir newName
  refine hlinked.setParent ?_ n
  rwa [FileSystem.link, size_modifyEntries, hsize]

theorem Sound.rename (h : fs.Sound) {source target : String}
    (hrename : fs.rename source target = .ok fs') : fs'.Sound := by
  obtain ⟨⟨⟩, -, hrename⟩ := bind_eq_ok.1 hrename
  obtain ⟨⟨⟩, -, hrename⟩ := bind_eq_ok.1 hrename
  obtain ⟨old, hold, hrename⟩ := bind_eq_ok.1 hrename
  obtain ⟨new, hnew, hrename⟩ := bind_eq_ok.1 hrename
  split at hrename
  · next oldName newName hlastOld hlastNew =>
    obtain ⟨_ | n, hfound, hrename⟩ := bind_eq_ok.1 hrename
    · exact nomatch hrename
    obtain ⟨replaced, hreplaced, hrename⟩ := bind_eq_ok.1 hrename
    obtain ⟨parent, es, hdir, -, hlookup⟩ := entry?_eq_ok_some hfound
    have hmove : (fs.move old.dir oldName new.dir newName n).Sound :=
      h.move ((h.named hdir).2 _ (mem_of_lookup hlookup))
        (lt_of_isDirectory (h.isDirectory_of_approach hnew))
    obtain ⟨-, hrename⟩ := guard_eq_ok.1 hrename
    obtain ⟨-, hrename⟩ := guard_eq_ok.1 hrename
    cases replaced with
    | none =>
        obtain rfl := Except.ok.inj hrename
        exact hmove
    | some m =>
        obtain ⟨-, hrename⟩ := guard_eq_ok.1 hrename
        split at hrename
        · obtain rfl := Except.ok.inj hrename
          exact h
        · obtain ⟨⟨⟩, -, hrename⟩ := bind_eq_ok.1 hrename
          obtain rfl := Except.ok.inj hrename
          exact hmove
  · exact nomatch hrename

theorem size_create (fs : FileSystem) (dir : NodeId) (name : String) (node : Node) :
    (fs.create dir name node).2.nodes.size = fs.nodes.size + 1 :=
  (size_modifyEntries ..).trans (Array.size_push _)

theorem Sound.plant (h : fs.Sound) (hdir : dir < fs.nodes.size) (given : Option ByteArray)
    (names : List String) : (fs.plant dir given names).Sound := by
  induction names generalizing fs dir with
  | nil => exact h
  | cons name names ih =>
      cases names with
      | nil =>
          cases given with
          | some content => exact h.createFile content dir name
          | none =>
              rw [FileSystem.plant]
              split
              · exact h
              · exact h.createDirectory hdir dir name
      | cons next names =>
          rw [FileSystem.plant]
          · split
            · next n hn =>
              obtain ⟨es, hes, hlookup⟩ := Option.bind_eq_some_iff.1 hn
              obtain ⟨parent, hnode⟩ := entries?_eq_some_iff.1 hes
              exact ih h ((h.named hnode).2 _ (mem_of_lookup hlookup))
            · refine ih (h.createDirectory hdir dir name) ?_
              exact Nat.lt_of_lt_of_eq (Nat.lt_succ_self _) (size_create ..).symm
          · exact List.cons_ne_nil _ _

theorem Sound.add (h : fs.Sound) (path : String) (bytes : ByteArray) : (fs.add path bytes).Sound :=
  h.plant (lt_of_isDirectory h.current) _ _

end LuaEmbed.FileSystem
