import Mathlib
import LuaEmbed.Proofs.Files.Reading
import LuaEmbed.Proofs.Files.Writing

/-!
# What is written and what is read

A file that has been written anew holds the texts that were written to it, in their order.  Reading a
text, from a file or from standard input, in whatever pieces, gives all of it in its order, and going
through its lines gives what the line feeds of the text separate.
-/

namespace LuaEmbed.Library.Files

open Text (bytes)

/-- All that is given beforehand is left to read on standard input, with a handle or without one. -/
theorem left_ofBytes {s : Session} {bs : List UInt8} (h : s.machine.input = .ofBytes bs) :
    Reader.standardInput.Left bs s ∧
      ∀ r, Holds s r .standardInput → (Reader.handle r).Left bs s := by
  have hleaves : InputLeaves s.machine.input bs := ⟨_, h, rfl⟩
  exact ⟨hleaves, fun r hr ↦ .inr ⟨hr, hleaves⟩⟩

/-- The texts that are written to a file opened with mode `w` are its content, once it is closed.  A
text that is read, from a file or from standard input, is answered piece by piece: nothing of it is
lost, given twice or out of order, there is no answer at its end alone, and whoever asks for
everything gets all that is left.  Iterating over the lines gives each of them once, and then
nothing. -/
theorem contents_conserved :
    (∀ (s s₁ : Session) (path : String) (r : Ref) (calls : List Arguments)
        (texts : List (List String)), s.world.files.Sound →
      run .openFile [.string path, .string "w"] s = .ok [.userdata r] s₁ →
      calls.mapM (·.mapM Value.toText?) = some texts →
      ∃ s₂ s₃, calls.mapM (fun args ↦ run .handleWrite (.userdata r :: args)) s₁ =
          .ok (calls.map fun _ ↦ [.userdata r]) s₂ ∧
        run .handleClose [.userdata r] s₂ = .ok [.boolean true] s₃ ∧
        s₃.world.files.readFile path = .ok (String.join texts.flatten).toByteArray) ∧
    (∀ (s : Session) (path t : String), s.world.files.readFile path = .ok t.toByteArray →
      ∃ r s₁, run .openFile [.string path, .string "r"] s = .ok [.userdata r] s₁ ∧
        (Reader.handle r).Left (bytes t) s₁) ∧
    (∀ (s : Session) (t : String), s.machine.input = .ofBytes (bytes t) →
      Reader.standardInput.Left (bytes t) s ∧
        ∀ r, Holds s r .standardInput → (Reader.handle r).Left (bytes t) s) ∧
    (∀ (x : Reader) (s : Session) (t : String) (calls : List Arguments)
        (requests : List (List ReadFormat)), x.Left (bytes t) s →
      calls.mapM formats? = some requests → OnBoundaries t requests.flatten →
      ∃ replies rest s₁, calls.mapM x.read s = .ok (replies.map (·.map Answer.value)) s₁ ∧
        Replies requests t replies rest ∧
        String.join (replies.flatten.map Answer.restored) ++ rest = t) ∧
    (∀ (r : Ref) (s : Session) (t : String), (Reader.handle r).Left (bytes t) s →
      ∃ k s₁, run .handleLines [.userdata r] s = .ok [.function k, .userdata r] s₁ ∧
        s₁.machine.functions[k]? = some (.native "lines_iter" (.file .linesStep)) ∧
        ∀ controls : List Arguments, controls.length = (lines t).length →
          ∃ s₂, controls.mapM (fun args ↦ run .linesStep (.userdata r :: args)) s₁ =
              .ok ((lines t).map fun u ↦ [.string u]) s₂ ∧
            ∀ args, ∃ s₃, run .linesStep (.userdata r :: args) s₂ = .ok [.nil] s₃) := by
  refine ⟨fun s s₁ path r calls texts hsound hopen htexts ↦ ?_, fun s path t hfile ↦ ?_,
    fun s t ↦ left_ofBytes, fun x s t calls requests hleft hcalls hbounds ↦ ?_, fun r s t hleft ↦ ?_⟩
  · have hempty := atEnd_openFile hsound openMode_w rfl rfl rfl hopen
    obtain ⟨s₂, hwrites, hend⟩ := hempty.writes htexts
    obtain ⟨s₃, hclose, hfile⟩ := hend.close []
    rw [ByteArray.empty_append] at hfile
    exact ⟨s₂, s₃, hwrites, hclose, hfile⟩
  · exact exists_openFile_read openMode_r rfl rfl rfl hfile
  · obtain ⟨replies, rest, s₁, hrun, -, hreplies⟩ := hleft.replies hcalls hbounds
    exact ⟨replies, rest, s₁, hrun, hreplies, hreplies.join_restored⟩
  · obtain ⟨k, s₁, hlines, hk, hleft₁⟩ := hleft.handleLines []
    refine ⟨k, s₁, hlines, hk, fun controls hcontrols ↦ ?_⟩
    obtain ⟨s₂, hiterate, hleft₂⟩ := hleft₁.iterate hcontrols
    refine ⟨s₂, hiterate, fun args ↦ ?_⟩
    obtain ⟨s₃, hend, -⟩ := hleft₂.linesStep_end args
    exact ⟨s₃, hend⟩

/-- Two lines are written in two calls, and read back. -/
theorem contents_conserved_two_lines :
    let s : Session := ⟨Machine.initial 200, World.initial⟩
    let calls : List Arguments := [[.string "a\n", .string "b"], []]
    ∃ r s₁ s₂ s₃ r' s₄, run .openFile [.string "f", .string "w"] s = .ok [.userdata r] s₁ ∧
      calls.mapM (fun args ↦ run .handleWrite (.userdata r :: args)) s₁ =
        .ok [[.userdata r], [.userdata r]] s₂ ∧
      run .handleClose [.userdata r] s₂ = .ok [.boolean true] s₃ ∧
      run .openFile [.string "f", .string "r"] s₃ = .ok [.userdata r'] s₄ ∧
      (∃ replies rest s₅, [[], [.string "*a", .string "*l"]].mapM (Reader.handle r').read s₄ =
          .ok (replies.map (·.map Answer.value)) s₅ ∧
        Replies [[.line], [.all, .line]] "a\nb" replies rest) ∧
      ∃ k s₅ s₆, run .handleLines [.userdata r'] s₄ = .ok [.function k, .userdata r'] s₅ ∧
        [[], []].mapM (fun args ↦ run .linesStep (.userdata r' :: args)) s₅ =
          .ok [[.string "a"], [.string "b"]] s₆ := by
  intro s calls
  obtain ⟨hwriting, hopening, -, hreading, hlines⟩ := contents_conserved
  have hnode : (FileSystem.initial.openNode "f" ⟨false, true, false, true, true⟩).isOk = true := by
    cbv
  rcases hopen : FileSystem.initial.openNode "f" ⟨false, true, false, true, true⟩ with e | ⟨n, files⟩
  · rw [hopen] at hnode
    cases hnode
  obtain ⟨r, s₁, hrun, -⟩ := openFile_of_ok (s := s) openMode_w hopen
  obtain ⟨s₂, s₃, hwrites, hclose, hfile⟩ := hwriting s s₁ "f" r calls [["a\n", "b"], []]
    FileSystem.sound_initial hrun rfl
  obtain ⟨r', s₄, hrun', hleft⟩ := hopening s₃ "f" "a\nb" hfile
  obtain ⟨replies, rest, s₅, hread, hreplies, -⟩ := hreading (.handle r') s₄ "a\nb"
    [[], [.string "*a", .string "*l"]] [[.line], [.all, .line]] hleft rfl trivial
  obtain ⟨k, s₆, hhandle, -, hiterate⟩ := hlines r' s₄ "a\nb" hleft
  obtain ⟨s₇, hcalls, -⟩ := hiterate [[], []] rfl
  exact ⟨r, s₁, s₂, s₃, r', s₄, hrun, hwrites, hclose, hrun', ⟨replies, rest, s₅, hread, hreplies⟩,
    k, s₆, s₇, hhandle, hcalls⟩

end LuaEmbed.Library.Files
