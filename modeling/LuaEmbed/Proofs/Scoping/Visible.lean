import LuaEmbed.Machine

/-!
# Visible names

Which declarations are visible at a place of a program is a matter of its text: the parameters of
the functions around it, the variables of the loops around it, and the local names declared before
it in the blocks around it.  They come in groups, one for each declaration, innermost first.  A name
stands for the innermost declaration of it, which has a fixed place among the groups, and for a
global variable if there is none.
-/

namespace LuaEmbed

/-- The names visible at a place, in the groups that they are declared in, innermost first. -/
abbrev Visible := List (List String)

/-- The names of the variables of a group. -/
def Group.names (g : Group) : List String := g.map Prod.fst

/-- The names of the variables of a scope. -/
def Scope.visible (scope : Scope) : Visible := scope.map Group.names

/-- The variable at a place of a scope: the number of its group, and its number in the group. -/
def Scope.at? (scope : Scope) (place : Nat × Nat) : Option Ref :=
  (scope[place.1]?.bind (·[place.2]?)).map Prod.snd

namespace Visible

/-- The place of a name in a group; of two declarations of one name it is the later. -/
def index? : List String → String → Option Nat
  | [], _ => none
  | x :: names, name =>
    match index? names name with
    | some j => some (j + 1)
    | none => if x = name then some 0 else none

/-- The place of the innermost declaration of a name. -/
def resolve? : Visible → String → Option (Nat × Nat)
  | [], _ => none
  | names :: vis, name =>
    match index? names name with
    | some j => some (0, j)
    | none => (resolve? vis name).map fun place ↦ (place.1 + 1, place.2)

end Visible

/-! ## Declarations -/

/-- The names that a statement makes visible to those after it. -/
def Stat.declares : Stat → Visible
  | .local_ _ names _ => [names]
  | .localFunction _ name _ => [[name]]
  | _ => []

/-- The names visible after statements, from those visible before them. -/
def Visible.after (vis : Visible) : List Stat → Visible
  | [] => vis
  | stat :: rest => after (stat.declares ++ vis) rest

/-! ## What names stand for -/

namespace Visible

variable {names : List String} {vis : Visible} {x : String} {i j : Nat}

theorem index?_eq_none_iff : index? names x = none ↔ x ∉ names := by
  induction names with
  | nil => exact iff_of_true rfl List.not_mem_nil
  | cons y names ih =>
      rw [index?, List.mem_cons, not_or, ← ih]
      split
      · next heq => simp [heq]
      · next heq => simp [heq, eq_comm]

theorem mem_of_index? (h : index? names x = some j) : x ∈ names := by
  refine Decidable.not_not.1 fun hx ↦ ?_
  rw [index?_eq_none_iff.2 hx] at h
  exact nomatch h

theorem index?_eq_some_iff :
    index? names x = some j ↔ names[j]? = some x ∧ x ∉ names.drop (j + 1) := by
  induction names generalizing j with
  | nil => simp [index?]
  | cons y names ih =>
      rw [index?]
      split
      · next k heq =>
        cases j with
        | zero => simpa using fun _ ↦ mem_of_index? heq
        | succ j =>
            rw [List.getElem?_cons_succ, List.drop_succ_cons, ← ih, heq, Option.some.injEq,
              Option.some.injEq, Nat.add_left_inj]
      · next heq =>
        have hmem : x ∉ names := index?_eq_none_iff.1 heq
        cases j with
        | zero => simp [hmem]
        | succ j =>
            rw [List.getElem?_cons_succ, List.drop_succ_cons, ← ih, heq]
            simp

/-- A name is that of a global variable if and only if no declaration of it is visible. -/
theorem resolve?_eq_none_iff : vis.resolve? x = none ↔ x ∉ vis.flatten := by
  induction vis with
  | nil => exact iff_of_true rfl List.not_mem_nil
  | cons names vis ih =>
      rw [resolve?, List.flatten_cons, List.mem_append, not_or, ← ih, ← index?_eq_none_iff]
      split
      · next heq => simp [heq]
      · next heq => simp [heq]

/-- A name stands for the last declaration of it in the innermost group with one. -/
theorem resolve?_eq_some_iff :
    vis.resolve? x = some (i, j) ↔
      (∃ names, vis[i]? = some names ∧ names[j]? = some x ∧ x ∉ names.drop (j + 1)) ∧
        x ∉ (vis.take i).flatten := by
  induction vis generalizing i with
  | nil => simp [resolve?]
  | cons names vis ih =>
      rw [resolve?]
      cases i with
      | zero =>
          simp only [List.getElem?_cons_zero, Option.some.injEq, exists_eq_left', List.take_zero,
            List.flatten_nil, List.not_mem_nil, not_false_eq_true, and_true, ← index?_eq_some_iff]
          split
          · next heq => simp [heq]
          · next heq => simp [heq]
      | succ i =>
          simp only [List.getElem?_cons_succ, List.take_succ_cons, List.flatten_cons,
            List.mem_append, not_or]
          split
          · next heq =>
            have hmem := mem_of_index? heq
            simp [hmem]
          · next heq =>
            have hmap : (resolve? vis x).map (fun place ↦ (place.1 + 1, place.2)) =
                some (i + 1, j) ↔ resolve? vis x = some (i, j) := by
              simp
            rw [hmap, ih]
            simp only [index?_eq_none_iff.1 heq, not_false_eq_true, true_and]

end Visible

/-! ## Scopes -/

theorem Group.names_cons (y : String) (r : Ref) (g : Group) :
    names ((y, r) :: g) = y :: names g := rfl

theorem Scope.visible_cons (g : Group) (scope : Scope) :
    visible (g :: scope) = g.names :: visible scope := rfl

/-- A variable that is declared in a group is there. -/
theorem Group.getElem?_of_index? {g : Group} {x : String} {j : Nat}
    (h : Visible.index? g.names x = some j) : ∃ r, g[j]? = some (x, r) := by
  have hj := (Visible.index?_eq_some_iff.1 h).1
  rw [names, List.getElem?_map, Option.map_eq_some_iff] at hj
  obtain ⟨⟨_, r⟩, hr, rfl⟩ := hj
  exact ⟨r, hr⟩

/-- The variable of a name in a group is the last one that is declared under it. -/
theorem Group.cell?_eq (g : Group) (x : String) :
    g.cell? x = ((Visible.index? g.names x).bind (g[·]?)).map Prod.snd := by
  induction g with
  | nil => rfl
  | cons v g ih =>
      obtain ⟨y, r⟩ := v
      rw [cell?, ih, names_cons, Visible.index?]
      cases hindex : Visible.index? (names g) x with
      | none => by_cases hx : y = x <;> simp [hx]
      | some j =>
          obtain ⟨r', hr'⟩ := getElem?_of_index? hindex
          simp [hr']

/-- The cell of a name is that of the innermost visible declaration of it. -/
theorem Scope.cell?_eq (scope : Scope) (x : String) :
    scope.cell? x = (scope.visible.resolve? x).bind scope.at? := by
  induction scope with
  | nil => rfl
  | cons g scope ih =>
      rw [cell?, visible_cons, Visible.resolve?, Group.cell?_eq]
      cases hindex : Visible.index? g.names x with
      | none =>
          rw [ih]
          cases Visible.resolve? (visible scope) x <;> rfl
      | some j =>
          obtain ⟨r, hr⟩ := Group.getElem?_of_index? hindex
          simp [at?, hr]

/-- There is a cell exactly where a declaration is visible. -/
theorem Scope.isSome_cell? (scope : Scope) (x : String) :
    (scope.cell? x).isSome = (scope.visible.resolve? x).isSome := by
  rw [cell?_eq]
  cases hplace : scope.visible.resolve? x with
  | none => rfl
  | some place =>
      obtain ⟨i, j⟩ := place
      obtain ⟨⟨names, hnames, hx, _⟩, _⟩ := Visible.resolve?_eq_some_iff.1 hplace
      rw [visible, List.getElem?_map, Option.map_eq_some_iff] at hnames
      obtain ⟨g, hg, rfl⟩ := hnames
      rw [Group.names, List.getElem?_map, Option.map_eq_some_iff] at hx
      obtain ⟨v, hv, _⟩ := hx
      simp [at?, hg, hv]

end LuaEmbed
