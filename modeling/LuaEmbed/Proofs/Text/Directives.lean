import LuaEmbed.Library.Strings
import LuaEmbed.Proofs.Numbers.Hexadecimal
import LuaEmbed.Proofs.Runs.Reads
import Mathlib.Logic.Relation

/-!
# Directives of a format

A directive is written as flags, the digits of a width and, behind a point, the digits of a
precision.  Each of the two numbers is counted in a word of 64 bits before it is held against the
limit, so that what is compared is its remainder modulo `2 ^ 64`: a number too great for a word may
pass.
-/

namespace LuaEmbed.Text.Directive

variable {flags width ds rest cs : List Char} {precision : Option (List Char)}

/-! ## How directives are written -/

/-- A precision as it is written, if there is one. -/
def point : Option (List Char) → List Char
  | some ds => '.' :: ds
  | none => []

/-- Flags, digits and a precision stand before `rest`, and each of them goes as far as it can. -/
structure Spelled (flags width : List Char) (precision : Option (List Char)) (rest : List Char) :
    Prop where
  all_flags : ∀ c ∈ flags, isFlag c = true
  all_width : ∀ c ∈ width, Number.isDigit c = true
  all_precision : ∀ ds ∈ precision, ∀ c ∈ ds, Number.isDigit c = true
  flags_end : ∀ c ∈ (width ++ (point precision ++ rest)).head?, isFlag c = false
  width_end : ∀ c ∈ (point precision ++ rest).head?, Number.isDigit c = false
  point_end : precision = none → ∀ r, rest ≠ '.' :: r
  precision_end : precision ≠ none → ∀ c ∈ rest.head?, Number.isDigit c = false

/-- The directive that is written with these flags and digits. -/
def ofSpelling (flags width : List Char) (precision : Option (List Char)) : Directive :=
  ⟨flags.contains '-', flags.contains '+', flags.contains ' ', flags.contains '0',
    flags.contains '#', count width, precision.map count⟩

section Spans

variable {α : Type} {p : α → Bool} {xs ys : List α}

/-- The elements of a class at the start of a list. -/
theorem takeWhile_append_of_head? (h : ∀ x ∈ xs, p x = true) (hend : ∀ y ∈ ys.head?, p y = false) :
    (xs ++ ys).takeWhile p = xs := by
  rw [List.takeWhile_append_of_pos h]
  cases ys with
  | nil => rw [List.takeWhile_nil, List.append_nil]
  | cons y ys => rw [List.takeWhile_cons, hend y rfl, if_neg Bool.false_ne_true, List.append_nil]

theorem dropWhile_append_of_head? (h : ∀ x ∈ xs, p x = true) (hend : ∀ y ∈ ys.head?, p y = false) :
    (xs ++ ys).dropWhile p = ys := by
  rw [List.dropWhile_append_of_pos h]
  cases ys with
  | nil => rfl
  | cons y ys => rw [List.dropWhile_cons, hend y rfl, if_neg Bool.false_ne_true]

theorem head?_dropWhile {x : α} (h : x ∈ (xs.dropWhile p).head?) : p x = false := by
  have hnot := List.head?_dropWhile_not p xs
  rw [Option.mem_def] at h
  rw [h] at hnot
  simpa using hnot

end Spans

/-- Reading takes apart what a directive is put together from. -/
theorem read_of_spelled (h : Spelled flags width precision rest) :
    read (flags ++ (width ++ (point precision ++ rest))) =
      (ofSpelling flags width precision, rest) := by
  have htake := takeWhile_append_of_head? h.all_flags h.flags_end
  have hdrop := dropWhile_append_of_head? h.all_flags h.flags_end
  have htake' := takeWhile_append_of_head? h.all_width h.width_end
  have hdrop' := dropWhile_append_of_head? h.all_width h.width_end
  rw [read, htake, hdrop, htake', hdrop']
  cases precision with
  | none =>
      dsimp only [point, List.nil_append]
      split
      · next r => exact absurd rfl (h.point_end rfl r)
      · rfl
  | some ds =>
      have htake'' := takeWhile_append_of_head? (h.all_precision ds rfl) (h.precision_end nofun)
      have hdrop'' := dropWhile_append_of_head? (h.all_precision ds rfl) (h.precision_end nofun)
      simp only [point, List.cons_append, htake'', hdrop'']
      rfl

/-- Whatever follows the sign of a directive starts with a directive. -/
theorem exists_spelled (cs : List Char) :
    ∃ flags width precision rest, cs = flags ++ (width ++ (point precision ++ rest)) ∧
      Spelled flags width precision rest := by
  obtain ⟨flags, rest₁, rfl, hflags, hend⟩ : ∃ xs ys, cs = xs ++ ys ∧
      (∀ c ∈ xs, isFlag c = true) ∧ ∀ c ∈ ys.head?, isFlag c = false :=
    ⟨_, _, (List.takeWhile_append_dropWhile (p := isFlag)).symm, fun _ ↦ List.mem_takeWhile_imp,
      fun _ ↦ head?_dropWhile⟩
  obtain ⟨width, rest₂, rfl, hwidth, hend'⟩ : ∃ xs ys, rest₁ = xs ++ ys ∧
      (∀ c ∈ xs, Number.isDigit c = true) ∧ ∀ c ∈ ys.head?, Number.isDigit c = false :=
    ⟨_, _, (List.takeWhile_append_dropWhile (p := Number.isDigit)).symm,
      fun _ ↦ List.mem_takeWhile_imp, fun _ ↦ head?_dropWhile⟩
  rcases em (∃ r, rest₂ = '.' :: r) with ⟨rest₃, rfl⟩ | hpoint
  · obtain ⟨ds, rest, rfl, hds, hend''⟩ : ∃ xs ys, rest₃ = xs ++ ys ∧
        (∀ c ∈ xs, Number.isDigit c = true) ∧ ∀ c ∈ ys.head?, Number.isDigit c = false :=
      ⟨_, _, (List.takeWhile_append_dropWhile (p := Number.isDigit)).symm,
        fun _ ↦ List.mem_takeWhile_imp, fun _ ↦ head?_dropWhile⟩
    exact ⟨flags, width, some ds, rest, rfl, hflags, hwidth, fun _ h ↦ Option.some.inj h ▸ hds,
      hend, hend', nofun, fun _ ↦ hend''⟩
  · exact ⟨flags, width, none, rest₂, rfl, hflags, hwidth, nofun, hend, hend',
      fun _ ↦ not_exists.1 hpoint, fun h ↦ absurd rfl h⟩

/-! ## Counting in a word -/

open Number (natOfDigits words64)

theorem count_append_singleton (ds : List Char) (c : Char) :
    count (ds ++ [c]) = (count ds * 10 + (Number.digitValue? c).getD 0) % words64 := by
  rw [count, List.foldl_append]
  rfl

/-- Digits are counted up to a remainder. -/
theorem count_eq (ds : List Char) : count ds = natOfDigits 10 ds % words64 := by
  induction ds using List.reverseRecOn with
  | nil => rfl
  | append_singleton ds c ih =>
      rw [count_append_singleton, ih, Number.natOfDigits_append_singleton, words64]
      omega

end LuaEmbed.Text.Directive

namespace LuaEmbed.Library.Strings

open Text (Directive)
open Text.Directive (Spelled point ofSpelling)

variable {call : Caller} {args : Arguments} {fuel fuel' n : ℕ} {cs rest : List Char}
  {done fmt : String} {s s' : Session} {d : Directive}

/-! ## Laying out a format -/

/-- Lay out one directive with its argument, whatever its width and its precision are. -/
def layDirective (call : Caller) (args : Arguments) (d : Directive) (rest : List Char) (n : ℕ) :
    Run (List Char) :=
  match rest with
  | [] => Report.raise .runtime (.formatOption "")
  | conversion :: _ => do
    if args.length < n + 1 then Report.argument .argumentMissing (n + 1) .noValue
    convert call args d conversion (n + 1)

theorem formatFrom_char {c : Char} (hc : c ≠ '%') :
    formatFrom call args (fuel + 1) (c :: cs) n done =
      formatFrom call args fuel cs n (done.push c) := by
  rw [formatFrom.eq_def]
  exact if_pos (by simpa using hc)

theorem formatFrom_percent :
    formatFrom call args (fuel + 1) ('%' :: '%' :: cs) n done =
      formatFrom call args fuel cs n (done.push '%') := by
  rw [formatFrom.eq_3, if_neg (by decide)]

theorem formatFrom_directive (h : ∀ r, cs ≠ '%' :: r) :
    formatFrom call args (fuel + 1) ('%' :: cs) n done =
      if (Directive.read cs).1.isInRange then do
        let shown ← layDirective call args (Directive.read cs).1 (Directive.read cs).2 n
        formatFrom call args fuel (Directive.read cs).2.tail (n + 1) (done ++ String.ofList shown)
      else Report.raise .runtime .formatTooLong := by
  rw [formatFrom.eq_4 _ _ _ _ _ _ _ fun r hr ↦ h r hr, if_neg (by decide)]
  obtain ⟨d, rest⟩ := Directive.read cs
  dsimp only
  cases hrange : d.isInRange with
  | false => rfl
  | true =>
      rw [if_neg (by decide), if_pos rfl]
      cases rest with
      | nil => rfl
      | cons conversion rest =>
          rw [layDirective]
          dsimp only
          by_cases hargs : args.length < n + 1
          · rw [if_pos hargs, if_pos hargs]
            rfl
          · rw [if_neg hargs, if_neg hargs]
            rfl

theorem length_read_le (cs : List Char) : (Directive.read cs).2.length ≤ cs.length := by
  obtain ⟨flags, width, precision, rest, rfl, hspelled⟩ := Directive.exists_spelled cs
  rw [Directive.read_of_spelled hspelled]
  simp only [List.length_append]
  omega

/-- The fuel does not matter as long as it is enough for all characters. -/
theorem formatFrom_congr (fuel fuel' : ℕ) (cs : List Char) (n : ℕ) (done : String)
    (h : cs.length ≤ fuel) (h' : cs.length ≤ fuel') :
    formatFrom call args fuel cs n done = formatFrom call args fuel' cs n done := by
  induction fuel generalizing fuel' cs n done with
  | zero =>
      obtain rfl := List.eq_nil_of_length_eq_zero (Nat.le_zero.1 h)
      cases fuel' <;> rfl
  | succ fuel ih =>
      cases cs with
      | nil => cases fuel' <;> rfl
      | cons c cs =>
          obtain ⟨fuel', rfl⟩ : ∃ k, fuel' = k + 1 := ⟨fuel' - 1, by simp at h'; omega⟩
          simp only [List.length_cons, Nat.add_le_add_iff_right] at h h'
          by_cases hc : c = '%'
          · subst hc
            rcases em (∃ r, cs = '%' :: r) with ⟨r, rfl⟩ | hdirective
            · simp only [List.length_cons] at h h'
              rw [formatFrom_percent, formatFrom_percent,
                ih fuel' r n (done.push '%') (by omega) (by omega)]
            · have hread := length_read_le cs
              have hrest (n : ℕ) (done : String) := ih fuel' (Directive.read cs).2.tail n done
                (by rw [List.length_tail]; omega) (by rw [List.length_tail]; omega)
              rw [formatFrom_directive (not_exists.1 hdirective),
                formatFrom_directive (not_exists.1 hdirective)]
              simp only [hrest]
          · rw [formatFrom_char hc, formatFrom_char hc, ih fuel' cs n (done.push c) h h']

/-! ## Reached places -/

/-- How far a format has been laid out: what follows, the position of the last argument used, the
text so far, and the session. -/
structure Layout where
  rest : List Char
  used : ℕ
  done : String
  session : Session

/-- A character, a percent sign or a directive is laid out. -/
inductive Passes (call : Caller) (args : Arguments) : Layout → Layout → Prop
  | char {c : Char} {cs : List Char} {n : ℕ} {done : String} {s : Session} (hc : c ≠ '%') :
      Passes call args ⟨c :: cs, n, done, s⟩ ⟨cs, n, done.push c, s⟩
  | percent {cs : List Char} {n : ℕ} {done : String} {s : Session} :
      Passes call args ⟨'%' :: '%' :: cs, n, done, s⟩ ⟨cs, n, done.push '%', s⟩
  | directive {cs rest shown : List Char} {d : Directive} {n : ℕ} {done : String} {s s' : Session}
      (hcs : ∀ r, cs ≠ '%' :: r) (hread : Directive.read cs = (d, rest))
      (hrange : d.isInRange = true) (hshown : layDirective call args d rest n s = .ok shown s') :
      Passes call args ⟨'%' :: cs, n, done, s⟩ ⟨rest.tail, n + 1, done ++ String.ofList shown, s'⟩

/-- Laying out a format comes from one place to another. -/
abbrev Reaches (call : Caller) (args : Arguments) : Layout → Layout → Prop :=
  Relation.ReflTransGen (Passes call args)

/-- What laying out a format gives from a place on. -/
def formatRest (call : Caller) (args : Arguments) (x : Layout) :
    EStateM.Result Abort Session (List Value) :=
  (do return [.string (← formatFrom call args x.rest.length x.rest x.used x.done)] :
    Run (List Value)) x.session

theorem formatRest_eq (fuel : ℕ) (h : cs.length ≤ fuel) : formatRest call args ⟨cs, n, done, s⟩ =
    (do return [.string (← formatFrom call args fuel cs n done)] : Run (List Value)) s := by
  rw [formatRest, formatFrom_congr cs.length fuel cs n done le_rfl h]

variable {x y : Layout}

theorem Passes.formatRest_eq (h : Passes call args x y) :
    formatRest call args x = formatRest call args y := by
  cases h with
  | char hc => rw [formatRest, List.length_cons, formatFrom_char hc]; rfl
  | @percent cs n done s =>
      rw [Strings.formatRest_eq (cs.length + 1) (Nat.le_succ _), formatRest, List.length_cons,
        List.length_cons, formatFrom_percent]
  | @directive cs rest shown d n done s s' hcs hread hrange hshown =>
      have hlength : rest.tail.length ≤ cs.length := by
        have hle : rest.length ≤ cs.length := by simpa only [hread] using length_read_le cs
        rw [List.length_tail]
        omega
      rw [Strings.formatRest_eq cs.length hlength, formatRest, List.length_cons,
        formatFrom_directive hcs, hread, if_pos hrange, bind_assoc, Run.bind_of_ok hshown]

theorem Reaches.formatRest_eq (h : Reaches call args x y) :
    formatRest call args x = formatRest call args y := by
  induction h with
  | refl => rfl
  | tail _ hpass ih => rw [ih, hpass.formatRest_eq]

theorem format_eq (hfmt : args.arg 1 = .string fmt) :
    format call args s = formatRest call args ⟨fmt.toList, 1, "", s⟩ := by
  rw [format, Arguments.check_string hfmt]
  rfl

/-! ## The limit -/

end LuaEmbed.Library.Strings
