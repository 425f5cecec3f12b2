import LuaEmbed.Program
import LuaEmbed.Proofs.Lexing.Literals
import LuaEmbed.Proofs.Runs.After
import LuaEmbed.Proofs.Syntax.Returns

/-!
# Quoted strings

`string.format` quotes a string as a literal.  The literal is read as that string alone, and a chunk
that returns the literal returns the string.
-/

namespace LuaEmbed

variable {s : String}

/-! ## The chunk that returns a literal -/

namespace Text

/-- The source that returns a literal. -/
def returnLiteral (s : String) : String := "return " ++ literal s

theorem ne_carriageReturn_returnLiteral (s : String) :
    ∀ b ∈ bytes (returnLiteral s), b ≠ Glyph.carriageReturn := by
  rw [returnLiteral, bytes_append]
  intro b hb
  rcases List.mem_append.1 hb with hb | hb
  · have hall : (bytes "return ").all (· != Glyph.carriageReturn) = true := by cbv
    simpa using List.all_eq_true.1 hall b hb
  · exact Lexer.ne_carriageReturn_literal s b hb

end Text

namespace Lexer

theorem literal_outcomes (s : String) :
    (Lexer.ofBytes (Text.bytes (Text.literal s))).lexemes.map Lexeme.outcome =
      [.ok (.string s), .ok .endOfInput] := by
  have hfirst : (Text.bytes (Text.literal s)).head? ≠ some '#'.toUInt8 := by
    rw [Text.bytes_literal, List.head?_cons]
    decide
  have hreads (gs : List Glyph) (hgs : gs.map Glyph.byte = Text.bytes (Text.literal s)) :
      Reads gs [.string s] := by
    have hread := Reads.literal hgs .nil
    rwa [List.append_nil] at hread
  exact Reads.ofBytes (ne_carriageReturn_literal s) hfirst hreads

theorem tokenises_returnLiteral (s : String) :
    Tokenises (Text.bytes (Text.returnLiteral s)) [.terminal .return_, .string s] := by
  have hfirst : (Text.bytes (Text.returnLiteral s)).head? ≠ some '#'.toUInt8 := by
    rw [Text.returnLiteral, Text.bytes_append]
    change some (0x72 : UInt8) ≠ _
    decide
  refine Reads.ofBytes (Text.ne_carriageReturn_returnLiteral s) hfirst fun gs hgs ↦ ?_
  rw [Text.returnLiteral, Text.bytes_append] at hgs
  obtain ⟨first, last, rfl, hfirst, hlast⟩ := List.map_eq_append_iff.1 hgs
  have hread := Reads.return_ hfirst (.literal hlast .nil)
  rwa [List.append_nil] at hread

end Lexer

theorem Chunk.ofBytes_returnLiteral (name s : String) :
    ∃ line, Chunk.ofBytes name (Text.bytes (Text.returnLiteral s)) =
      .ok ⟨name, .mk [] true 0 [.return_ line [.string s]]⟩ := by
  obtain ⟨line, _, hchunk, rfl⟩ := ofBytes_return name (P := (· = .string s))
    (Lexer.tokenises_returnLiteral s) rfl rfl fun n ms rest _ h ↦ by
      refine ⟨_, ?_, rfl⟩
      rw [Parser.simpleExpr, Parser.bind_of_ok Parser.line_apply,
        Parser.bind_of_ok (Parser.peek_of_ahead h.ahead), h.tail_eq]
      rfl
  exact ⟨line, hchunk⟩

/-! ## Running it -/

namespace Program

open Evaluation Run

theorem runStat_return (fuel : Nat) (a : Activation) (scope : Scope) (line : Nat) (s : String)
    (σ : Session) : ∃ σ', runStat (fuel + 4) a scope (.return_ line [.string s]) σ =
      .ok (.leaveFunction [.string s]) σ' := by
  by_cases hline : 0 < (Stat.return_ line [.string s]).line
  · refine ⟨(goToLine line).after σ, ?_⟩
    unfold runStat
    rw [if_pos hline]
    rfl
  · refine ⟨σ, ?_⟩
    unfold runStat
    rw [if_neg hline]
    rfl

theorem runBody_return (fuel : Nat) (chunk : String) (line : Nat) (s : String) (σ : Session) :
    ∃ σ', runBody (fuel + 7) (.mk [] true 0 [.return_ line [.string s]]) chunk [] [] σ =
      .ok [.string s] σ' := by
  obtain ⟨σ', hstat⟩ := runStat_return fuel ⟨chunk, []⟩ [[]] line s σ
  have hstats : runStats (fuel + 5) ⟨chunk, []⟩ [[]] [.return_ line [.string s]] σ =
      .ok (.leaveFunction [.string s]) σ' := bind_of_ok hstat
  have hblock : runBlock (fuel + 6) ⟨chunk, []⟩ [[]] [.return_ line [.string s]] σ =
      .ok (.leaveFunction [.string s]) σ' := bind_of_ok hstats
  exact ⟨σ', bind_of_ok hblock⟩

/-- A chunk that returns a literal returns the string, wherever there is room for a call. -/
theorem execute_returnLiteral (fuel : Nat) (s : String) {σ : Session}
    (hroom : σ.machine.frames.length < σ.machine.callLimit) :
    ∃ σ', execute (fuel + 8) (Text.returnLiteral s) σ = .ok [.string s] σ' := by
  obtain ⟨line, hchunk⟩ := Chunk.ofBytes_returnLiteral Loader.textChunk s
  let f : Function := .script (.mk [] true 0 [.return_ line [.string s]]) Loader.textChunk []
  let σ₁ := (Heap.newFunction f).after σ
  have hload : Loader.ofBytes (Text.bytes (Text.returnLiteral s)) Loader.textChunk σ =
      .ok (.function σ.machine.functions.size) σ₁ := by
    rw [Loader.ofBytes, hchunk]
    rfl
  obtain ⟨σ₂, hbody⟩ := runBody_return fuel Loader.textChunk line s
    (σ₁.mapFrames (Frame.script none Loader.textChunk 0 :: ·))
  have hfunction : Heap.function? σ.machine.functions.size σ₁ = .ok (some f) σ₁ := by
    change EStateM.Result.ok (σ.machine.functions.push f)[σ.machine.functions.size]? σ₁ = _
    rw [Array.getElem?_push_size]
  have hactivate : activate (.script none Loader.textChunk 0)
      (runBody (fuel + 7) (.mk [] true 0 [.return_ line [.string s]]) Loader.textChunk [] []) σ₁ =
        .ok [.string s] (σ₂.mapFrames List.tail) := by
    have hroom₁ : ¬σ₁.machine.callLimit ≤ σ₁.machine.frames.length := Nat.not_le.2 hroom
    rw [activate, if_neg hroom₁, hbody]
  have hcall : call (fuel + 8) (.function σ.machine.functions.size) [] none σ₁ =
      .ok [.string s] (σ₂.mapFrames List.tail) := (bind_of_ok hfunction).trans hactivate
  have hpcall : pcall (fuel + 8) (.function σ.machine.functions.size) [] σ₁ =
      .ok [.string s] (σ₂.mapFrames List.tail) := by
    rw [pcall, protect, hcall]
  exact ⟨_, (bind_of_ok hload).trans hpcall⟩

end Program

/-! ## Quoting -/

theorem Library.Strings.format_quoted (call : Caller) (s : String) :
    Library.Strings.run call .format [.string "%q", .string s] =
      pure [.string (Text.literal s)] := by
  have hchars : "%q".toList = ['%', 'q'] := String.toList_ofList
  have hcheck : Arguments.check [.string "%q", .string s] .string 1 = pure "%q" := rfl
  have hformat : formatFrom call [.string "%q", .string s] 2 ['%', 'q'] 1 "" =
      pure ("" ++ String.ofList (Text.literal s).toList) := rfl
  rw [run, format, hcheck, pure_bind]
  dsimp only
  rw [hchars, List.length_cons, List.length_singleton, hformat, pure_bind, String.empty_append,
    String.ofList_toList]

/-- A quoted string is a literal of that string: it is read as the string and nothing else, and a
chunk that returns it returns the string. -/
theorem quoted_denotes (s : String) (fuel : Nat) {σ : Session}
    (hroom : σ.machine.frames.length < σ.machine.callLimit) :
    ∃ quoted,
      (∀ call, Library.Strings.run call .format [.string "%q", .string s] =
        pure [.string quoted]) ∧
      (Lexer.ofBytes (Text.bytes quoted)).lexemes.map Lexeme.outcome =
        [.ok (.string s), .ok .endOfInput] ∧
      ∃ σ', Program.execute (fuel + 8) ("return " ++ quoted) σ = .ok [.string s] σ' :=
  ⟨Text.literal s, fun call ↦ Library.Strings.format_quoted call s, Lexer.literal_outcomes s,
    Program.execute_returnLiteral fuel s hroom⟩

/-- A text of a quote, a backslash, line breaks, a zero and a digit, on a fresh machine. -/
theorem quoted_denotes_escapes :
    let s := "\"\\\r\n\x001"
    let σ : Session := ⟨Machine.initial 1, World.initial⟩
    σ.machine.frames.length < σ.machine.callLimit ∧
      ∃ quoted,
        (∀ call, Library.Strings.run call .format [.string "%q", .string s] =
          pure [.string quoted]) ∧
        (Lexer.ofBytes (Text.bytes quoted)).lexemes.map Lexeme.outcome =
          [.ok (.string s), .ok .endOfInput] ∧
        ∃ σ', Program.execute 8 ("return " ++ quoted) σ = .ok [.string s] σ' := by
  intro s σ
  have hroom : σ.machine.frames.length < σ.machine.callLimit := by decide
  exact ⟨hroom, quoted_denotes s 0 hroom⟩

end LuaEmbed
