import LuaEmbed.Proofs.Numbers.Exact
import LuaEmbed.Proofs.Runs.Frames

/-!
# Arguments of host functions

Every accessor gives what its argument is read as, or fails with one report: its category, the place
in the script that called the host function, the position of the argument, the name the function was
called under, and the detail.  What the host function has done before does not matter: its runs leave
the active calls as they are.
-/

namespace LuaEmbed

/-! ## Types of the host -/

/-- The types that arguments are read as. -/
inductive HostType where
  | number | integer | boolean | string | table | function | userdata | thread

namespace HostType

/-- The values of a type. -/
abbrev Carrier : HostType → Type
  | .number => Float
  | .integer => Int
  | .boolean => Bool
  | .string => String
  | .table | .function | .userdata => Ref
  | .thread => Unit

/-- How a type is read. -/
def extractor : (t : HostType) → Extractor t.Carrier
  | .number => .number
  | .integer => .integer
  | .boolean => .boolean
  | .string => .string
  | .table => .table
  | .function => .function
  | .userdata => .userdata
  | .thread => .thread

/-- The kind of values that a type is read from. -/
def kind : HostType → Kind
  | .number | .integer => .number
  | .boolean => .boolean
  | .string => .string
  | .table => .table
  | .function => .function
  | .userdata => .userdata
  | .thread => .thread

end HostType

/-- The 64-bit integer that is left of a number without its fraction: the end of the range where the
number is beyond it, and zero for NaN. -/
def Number.saturated (f : Float) : Int :=
  match dyadic? f with
  | some x => max int64Min (min int64Max (if x.value < 0 then ⌈x.value⌉ else ⌊x.value⌋))
  | none => if f.isNaN then 0 else if isNegative f then int64Min else int64Max

theorem Number.toInt64_eq (f : Float) : toInt64 f = saturated f := by
  rw [toInt64, toIntWithin, saturated]
  cases dyadic? f with
  | none => rfl
  | some x =>
      have hrange : int64Min ≤ int64Max := by decide
      dsimp only
      rw [x.truncate_eq, clamp]
      omega

/-- What a value is read as. -/
def HostType.Reads : (t : HostType) → Value → t.Carrier → Prop
  | .number, v, n => v = .number n
  | .integer, v, i => ∃ n, v = .number n ∧ i = Number.saturated n
  | .boolean, v, b => v = .boolean b
  | .string, v, s => v = .string s
  | .table, v, r => v = .table r
  | .function, v, r => v = .function r
  | .userdata, v, r => v = .userdata r
  | .thread, v, _ => v = .thread

namespace HostType

variable {t : HostType} {v : Value}

theorem get?_of_kind (h : v.kind = t.kind) :
    ∃ a, t.extractor.get? v = some a ∧ t.Reads v a := by
  cases t <;> cases v <;> first
    | exact ⟨_, rfl, rfl⟩
    | exact ⟨_, rfl, _, rfl, Number.toInt64_eq _⟩
    | exact absurd h (by simp [Value.kind, kind])

theorem get?_of_kind_ne (h : v.kind ≠ t.kind) : t.extractor.get? v = none := by
  cases t <;> cases v <;> first
    | rfl
    | exact absurd rfl h

theorem extractor_kind (t : HostType) : t.extractor.kind = t.kind := by
  cases t <;> rfl

end HostType

/-! ## Calls from scripts -/

/-- A place where a script calls a host function: a line of a chunk, and the name that is called. -/
structure CallSite where
  chunk : String
  line : Nat
  name : String

namespace CallSite

/-- A host function runs that was called there. -/
def Calls (site : CallSite) (s : Session) : Prop :=
  ∃ caller rest defined, s.machine.frames = .native (some site.name) :: caller :: rest ∧
    caller.site = some ⟨site.chunk, defined, site.line⟩

/-- The chunk as reports name it. -/
def shownChunk (site : CallSite) : String := if site.chunk = "" then "[G]" else site.chunk

/-- The report on an argument. -/
def report (site : CallSite) (n : Nat) (detail : String) : String :=
  site.shownChunk ++ ":" ++ toString site.line ++ ": bad argument #" ++ toString n ++ " to " ++
    site.name ++ " (" ++ detail ++ ")"

/-- The run fails because of the argument at a position, and changes nothing. -/
def Refuses {α : Type} (site : CallSite) (n : Nat) (kind : FaultKind) (detail : String) (r : Run α)
    (s : Session) : Prop :=
  r s = .error (.fault (.message kind (site.report n detail))) s

variable {site : CallSite} {s : Session} {α : Type}

/-- A call by a script function. -/
theorem calls_of_script {caller : Frame} {rest : List Frame} {defined : Nat}
    (hframes : s.machine.frames = caller :: rest)
    (hsite : caller.site = some ⟨site.chunk, defined, site.line⟩) :
    site.Calls (s.mapFrames (.native (some site.name) :: ·)) :=
  ⟨caller, rest, defined, congrArg _ hframes, hsite⟩

/-- It is still running after anything that it does. -/
theorem Calls.after (h : site.Calls s) {r : Run α} (hr : r.Regular false) :
    site.Calls (r.after s) := by
  obtain ⟨caller, rest, defined, hframes, hsite⟩ := h
  exact ⟨caller, rest, defined, (hr.frames s).trans hframes, hsite⟩

theorem position_eq (site : CallSite) (f : Frame) (defined : Nat)
    (h : f.site = some ⟨site.chunk, defined, site.line⟩) :
    f.position = site.shownChunk ++ ":" ++ toString site.line ++ ":" := by
  simp only [Frame.position, h, shownChunk, namelessChunk, String.isEmpty_iff]

/-- A complaint about an argument names the place of the call, the position and the function, and
changes nothing. -/
theorem Calls.argument_eq (h : site.Calls s) (kind : FaultKind) (n : Nat) (p : ArgumentProblem) :
    (Report.argument kind n p : Run α) s =
      .error (.fault (.ofText kind (site.report n p.text))) s := by
  obtain ⟨caller, rest, defined, hframes, hsite⟩ := h
  have hname : Report.functionName 0 s = .ok site.name s := by
    simp [Report.functionName, Run.machine, hframes, Frame.native]
  have hlocation : Report.location 1 s =
      .ok (site.shownChunk ++ ":" ++ toString site.line ++ ":") s := by
    simp [Report.location, Run.machine, hframes, position_eq site caller defined hsite]
  have hposition : (site.shownChunk ++ ":" ++ toString site.line ++ ":").isEmpty = false := by simp
  have hproblem : (Problem.badArgument n site.name p).text =
      "bad argument #" ++ toString n ++ " to " ++ site.name ++ " (" ++ p.text ++ ")" := rfl
  have htext : site.shownChunk ++ ":" ++ toString site.line ++ ":" ++ " " ++
      (Problem.badArgument n site.name p).text = site.report n p.text := by
    have hspelt : ": bad argument #" = ":" ++ (" " ++ "bad argument #") := by decide
    simp only [hproblem, report, hspelt, String.append_assoc]
  rw [Report.argument, Run.bind_of_ok hname, Report.raise, Run.bind_of_ok hlocation,
    Report.positioned, hposition, if_neg Bool.false_ne_true, htext]
  rfl

/-- A failed accessor reports the argument, and changes nothing. -/
theorem Calls.argument (h : site.Calls s) (kind : FaultKind) (hkind : kind ≠ .runtime) (n : Nat)
    (p : ArgumentProblem) :
    site.Refuses n kind p.text (Report.argument kind n p : Run α) s := by
  have hfault (text : String) : Fault.ofText kind text = .message kind text := by
    cases kind <;> first
      | rfl
      | exact absurd rfl hkind
  rw [Refuses, h.argument_eq, hfault]

end CallSite

/-! ## Accessors -/

namespace Arguments

/-- What each accessor does with the argument at the position `n`, in a host function that was called
at a place of a script. -/
structure Exact (site : CallSite) (s : Session) (args : Arguments) (n : Nat) : Prop where
  passed : ∀ v, 1 ≤ n → args[n - 1]? = some v → args.arg n = v
  absent : n = 0 ∨ args.length < n → args.arg n = .nil
  checkAny_passed : 1 ≤ n → n ≤ args.length → args.checkAny n s = .ok (args.arg n) s
  checkAny_absent : n = 0 ∨ args.length < n →
    site.Refuses n .argumentMissing "value expected" (args.checkAny n) s
  check_kind : ∀ t : HostType, (args.arg n).kind = t.kind →
    ∃ a, t.Reads (args.arg n) a ∧ args.check t.extractor n s = .ok a s
  check_kind_ne : ∀ t : HostType, (args.arg n).kind ≠ t.kind →
    site.Refuses n .typeMismatch (t.kind.name ++ " expected, got " ++ (args.arg n).kind.name)
      (args.check t.extractor n) s
  opt_nil : ∀ (t : HostType) (default : t.Carrier), args.arg n = .nil →
    args.opt t.extractor n default s = .ok default s ∧ args.opt? t.extractor n s = .ok none s
  opt_ne_nil : ∀ (t : HostType) (default : t.Carrier), args.arg n ≠ .nil →
    args.opt t.extractor n default s = args.check t.extractor n s ∧
      args.opt? t.extractor n s = (some <$> args.check t.extractor n) s
  checkKind_eq : ∀ kind, (args.arg n).kind = kind → args.checkKind n kind s = .ok () s
  checkKind_ne : ∀ kind, (args.arg n).kind ≠ kind →
    site.Refuses n .typeMismatch (kind.name ++ " expected") (args.checkKind n kind) s
  checkKinds_mem : ∀ kinds, (args.arg n).kind ∈ kinds → args.checkKinds n kinds s = .ok () s
  checkKinds_notMem : ∀ kinds, (args.arg n).kind ∉ kinds →
    site.Refuses n .typeMismatch (String.intercalate " or " (kinds.map Kind.name) ++ " expected")
      (args.checkKinds n kinds) s
  checkOption_notString : ∀ options, (args.arg n).kind ≠ .string →
    site.Refuses n .typeMismatch ("string expected, got " ++ (args.arg n).kind.name)
      (args.checkOption n options) s
  checkOption_mem : ∀ options text, args.arg n = .string text → text ∈ options →
    ∃ i, args.checkOption n options s = .ok i s ∧ options[i]? = some text ∧
      ∀ j < i, options[j]? ≠ some text
  checkOption_notMem : ∀ options text, args.arg n = .string text → text ∉ options →
    site.Refuses n .invalidOption
      ("invalid option: " ++ text ++ " (must be one of " ++ String.intercalate "," options ++ ")")
      (args.checkOption n options) s

variable {site : CallSite} {s : Session} {args : Arguments} {n : Nat}

theorem arg_of_passed {v : Value} (hn : 1 ≤ n) (h : args[n - 1]? = some v) : args.arg n = v := by
  obtain ⟨n, rfl⟩ := Nat.exists_eq_add_of_le' hn
  rw [arg, show args[n]? = some v from h, Option.getD_some]

theorem arg_of_absent (h : n = 0 ∨ args.length < n) : args.arg n = .nil := by
  cases n with
  | zero => rfl
  | succ n => rw [arg, List.getElem?_eq_none (by omega), Option.getD_none]

theorem checkAny_of_passed (hn : 1 ≤ n) (h : n ≤ args.length) (s : Session) :
    args.checkAny n s = .ok (args.arg n) s := by
  have hpassed : (n == 0 || decide (args.length < n)) = false := by
    rw [Bool.or_eq_false_iff, beq_eq_false_iff_ne, decide_eq_false_iff_not]
    omega
  rw [checkAny, hpassed]
  rfl

theorem check_of_kind {t : HostType} (h : (args.arg n).kind = t.kind) (s : Session) :
    ∃ a, t.Reads (args.arg n) a ∧ args.check t.extractor n s = .ok a s := by
  obtain ⟨a, hget, hreads⟩ := HostType.get?_of_kind h
  refine ⟨a, hreads, ?_⟩
  rw [check, extract, hget]
  rfl

theorem checkOption_of_string {text : String} (h : args.arg n = .string text)
    (options : List String) (s : Session) :
    args.checkOption n options s =
      (match options.findIdx? (· == text) with
      | some i => return i
      | none => Report.argument .invalidOption n (.notAnOption text options) : Run Nat) s := by
  have hcheck : args.check .string n s = .ok text s := by
    rw [check, h]
    rfl
  exact Run.bind_of_ok hcheck

theorem exact_of_calls (hs : site.Calls s) (args : Arguments) (n : Nat) :
    Exact site s args n where
  passed _ := arg_of_passed
  absent := arg_of_absent
  checkAny_passed hn h := checkAny_of_passed hn h s
  checkAny_absent h := by
    have habsent : (n == 0 || decide (args.length < n)) = true := by
      rw [Bool.or_eq_true, beq_iff_eq, decide_eq_true_eq]
      exact h
    rw [checkAny, habsent]
    exact hs.argument .argumentMissing nofun n .missing
  check_kind _ h := check_of_kind h s
  check_kind_ne t h := by
    rw [check, extract, HostType.get?_of_kind_ne h, t.extractor_kind]
    exact hs.argument .typeMismatch nofun n (.expectedGot _ _)
  opt_nil t default h := by
    rw [opt, opt?, h]
    exact ⟨rfl, rfl⟩
  opt_ne_nil t default h := by
    rw [opt, opt?, if_neg (mt Value.isNil_iff.1 h), if_neg (mt Value.isNil_iff.1 h)]
    exact ⟨rfl, rfl⟩
  checkKind_eq kind h := by
    rw [checkKind, if_pos (beq_iff_eq.2 h)]
    rfl
  checkKind_ne kind h := by
    rw [checkKind, if_neg (mt beq_iff_eq.1 h)]
    exact hs.argument .typeMismatch nofun n (.expected kind)
  checkKinds_mem kinds h := by
    rw [checkKinds, if_pos (List.contains_iff_mem.2 h)]
    rfl
  checkKinds_notMem kinds h := by
    rw [checkKinds, if_neg (mt List.contains_iff_mem.1 h)]
    exact hs.argument .typeMismatch nofun n (.expectedOneOf kinds)
  checkOption_notString options h := by
    have hnone : (Extractor.string).get? (args.arg n) = none :=
      HostType.get?_of_kind_ne (t := .string) h
    have hcheck : site.Refuses n .typeMismatch
        (ArgumentProblem.expectedGot "string" (args.arg n).kind).text (args.check .string n) s := by
      rw [check, extract, hnone]
      exact hs.argument .typeMismatch nofun n _
    exact Run.bind_of_error hcheck
  checkOption_mem options text h hmem := by
    obtain ⟨i, hi⟩ : ∃ i, options.findIdx? (· == text) = some i :=
      ⟨_, List.findIdx?_eq_some_of_exists ⟨text, hmem, beq_self_eq_true text⟩⟩
    obtain ⟨hlt, hfound, hfirst⟩ := List.findIdx?_eq_some_iff_getElem.1 hi
    refine ⟨i, ?_, ?_, fun j hj heq ↦ hfirst j hj ?_⟩
    · rw [checkOption_of_string h, hi]
      rfl
    · rw [List.getElem?_eq_getElem hlt, beq_iff_eq.1 hfound]
    · exact beq_iff_eq.2 (List.getElem?_eq_some_iff.1 heq).2
  checkOption_notMem options text h hmem := by
    have hnone : options.findIdx? (· == text) = none :=
      List.findIdx?_eq_none_iff.2 fun x hx ↦ beq_eq_false_iff_ne.2 fun heq ↦ hmem (heq ▸ hx)
    rw [CallSite.Refuses, checkOption_of_string h, hnone]
    exact hs.argument .invalidOption nofun n (.notAnOption text options)

/-- A script function that is at a line of its chunk calls a host function under a name: the call runs
it as one more active call, and throughout every accessor is exact and reports that place. -/
theorem accessors_exact {caller : Frame} {rest : List Frame} {chunk : String} {defined line : Nat}
    (hframes : s.machine.frames = caller :: rest)
    (hsite : caller.site = some ⟨chunk, defined, line⟩) (name : String) :
    (∀ fuel r known op args, s.machine.functions[r]? = some (.native known op) →
      Program.call (fuel + 1) (.function r) args (some name) s =
        Run.activate (.native (some name)) (op.run fuel (Program.call fuel) args) s) ∧
    ∀ {α : Type} (before : Run α), before.Regular false → ∀ args n,
      Exact ⟨chunk, line, name⟩ (before.after (s.mapFrames (.native (some name) :: ·))) args n := by
  refine ⟨fun fuel r known op args hr ↦ ?_, fun before hbefore args n ↦ ?_⟩
  · have hfunction : Heap.function? r s = .ok (some (.native known op)) s :=
      congrArg (EStateM.Result.ok · s) hr
    exact Run.bind_of_ok hfunction
  · have hcalls : CallSite.Calls ⟨chunk, line, name⟩ (s.mapFrames (.native (some name) :: ·)) :=
      CallSite.calls_of_script hframes hsite
    exact exact_of_calls (hcalls.after hbefore) args n

/-- The third line of a chunk calls `f` with `nil`. -/
theorem accessors_exact_third_line :
    let s : Session :=
      ⟨{ Machine.initial 200 with frames := [⟨none, some ⟨"chunk", 0, 3⟩⟩] }, World.initial⟩
    s.machine.frames = [⟨none, some ⟨"chunk", 0, 3⟩⟩] ∧ (pure () : Run Unit).Regular false ∧
      Exact ⟨"chunk", 3, "f"⟩ (s.mapFrames (.native (some "f") :: ·)) [.nil] 1 := by
  intro s
  have hframes : s.machine.frames = [⟨none, some ⟨"chunk", 0, 3⟩⟩] := rfl
  exact ⟨hframes, .pure (), (accessors_exact hframes rfl "f").2 (pure ()) (.pure ()) [.nil] 1⟩

/-- A chunk with an empty name is not reported under that name. -/
theorem nameless_chunk_shown :
    let s := (Heap.newNative "rep" (.string .rep)).after ⟨Machine.initial 200, World.initial⟩
    (match Program.executeBytes 20 (Text.bytes "local rep = ... rep()") "" [.function 0] s with
      | .error (.fault (.message .typeMismatch text)) _ =>
        text == "[G]:1: bad argument #1 to rep (string expected, got nil)" &&
          text != "" ++ ":" ++ "1" ++ ": bad argument #1 to rep (string expected, got nil)"
      | _ => false) = true := by
  decide +kernel

end Arguments

end LuaEmbed
