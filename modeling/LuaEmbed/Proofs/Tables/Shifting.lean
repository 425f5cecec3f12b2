import LuaEmbed.Proofs.Tables.Assignments
import LuaEmbed.Proofs.Tables.Sequences

/-!
# Insertion and removal

The sequence part of a table ends before the least integer key without a value.  Insertion moves the
values from a place on up by one, from the last to the first, and removal moves those after a place
down by one, from the first to the last, so that no value is overwritten before it is moved.  As
lists, the sequence parts before and after are those of inserting and erasing at an index; all
other keys keep what they hold.
-/

namespace LuaEmbed.Table

variable {t t' : Table} {k : Key} {v : Value} {fuel i j m n p pos : Nat}

/-! ## Borders -/

theorem start_le_borderFrom (t : Table) (fuel n : Nat) : n ≤ t.borderFrom fuel n := by
  induction fuel generalizing n with
  | zero => exact Nat.le_refl n
  | succ fuel ih =>
      rw [borderFrom]
      split
      · exact Nat.le_refl n
      · exact (Nat.le_succ n).trans (ih (n + 1))

/-- Counting goes on as long as there are values and fuel. -/
theorem le_borderFrom (hfuel : n ≤ i + fuel)
    (h : ∀ j, i ≤ j → j < n → t.getInt (j + 1) ≠ .nil) : n ≤ t.borderFrom fuel i := by
  induction fuel generalizing i with
  | zero => exact hfuel
  | succ fuel ih =>
      rcases Nat.lt_or_ge i n with hlt | hge
      · have hvalue : ¬(t.getInt (i + 1)).isNil = true :=
          fun hnil ↦ h i (Nat.le_refl i) hlt (Value.isNil_iff.1 hnil)
        rw [borderFrom, if_neg hvalue]
        exact ih (by omega) fun j hij ↦ h j (Nat.le_of_succ_le hij)
      · exact hge.trans (start_le_borderFrom t (fuel + 1) i)

/-- Counting ends at the first integer without a value, if the fuel is enough for that. -/
theorem borderFrom_eq (hfuel : n ≤ fuel) (h : ∀ i < n, t.getInt (i + 1) ≠ .nil)
    (hnil : t.getInt (n + 1) = .nil) : t.borderFrom fuel 0 = n := by
  refine Nat.le_antisymm (Nat.le_of_not_lt fun hlt ↦ ?_) (le_borderFrom (by omega) fun i _ ↦ h i)
  exact getInt_ne_nil_of_lt_borderFrom (Nat.zero_le n) hlt hnil

theorem length_le_of_getInt (hnil : t.getInt (n + 1) = .nil) : t.length ≤ n :=
  Nat.le_of_not_lt fun hlt ↦ getInt_ne_nil_of_lt_length hlt hnil

/-- There is an entry for each of the integers that have values, so the fuel is enough for them. -/
theorem le_length (hn : n ≤ 2 ^ 53) (h : ∀ i < n, t.getInt (i + 1) ≠ .nil) : n ≤ t.length := by
  refine le_borderFrom ?_ fun i _ ↦ h i
  have := (le_length_toList hn h).trans t.length_toList_le
  omega

theorem length_eq (hn : n ≤ 2 ^ 53) (h : ∀ i < n, t.getInt (i + 1) ≠ .nil)
    (hnil : t.getInt (n + 1) = .nil) : t.length = n :=
  Nat.le_antisymm (length_le_of_getInt hnil) (le_length hn h)

/-- The key after the sequence part has no value. -/
theorem getInt_length (hsize : t.toList.length < 2 ^ 53) : t.getInt (t.length + 1) = .nil := by
  by_contra hvalue
  have hlt := length_lt hsize
  refine Nat.not_succ_le_self t.length (le_length (by omega) fun i hi ↦ ?_)
  rcases Nat.lt_succ_iff_lt_or_eq.1 hi with hi | rfl
  · exact getInt_ne_nil_of_lt_length hi
  · exact hvalue

/-! ## One key -/

theorem getInt_setInt (hi : i ≤ 2 ^ 53) (hj : j ≤ 2 ^ 53) (v : Value) :
    (t.setInt i v).getInt j = if i = j then v else t.getInt j := by
  rw [getInt, getKey_setInt]
  by_cases h : i = j
  · rw [if_pos h, if_pos (by rw [h])]
  · rw [if_neg h, if_neg fun heq ↦ h (keyOfInt_injective hi hj heq)]
    rfl

/-! ## Moving up -/

theorem getKey_shiftUp_of_ne (h : ∀ j, pos ≤ j → j ≤ i → keyOfInt (j + 1) ≠ k) :
    (t.shiftUp pos i).getKey k = t.getKey k := by
  induction i generalizing t with
  | zero => rfl
  | succ i ih =>
      rw [shiftUp]
      split
      · next hpos =>
        rw [ih fun j hj hji ↦ h j hj (Nat.le_succ_of_le hji), getKey_setInt]
        exact if_neg (h (i + 1) hpos (Nat.le_refl _))
      · rfl

/-- Every value has been moved before its key is given another. -/
theorem getInt_shiftUp (hpos : 0 < pos) (hi : i < 2 ^ 53) (hj : pos ≤ j) (hji : j ≤ i) :
    (t.shiftUp pos i).getInt (j + 1) = t.getInt j := by
  induction i generalizing t with
  | zero => omega
  | succ i ih =>
      rw [shiftUp, if_pos (hj.trans hji)]
      rcases Nat.le_succ_iff.1 hji with hji | rfl
      · rw [ih (by omega) hji]
        exact (getInt_setInt (i := i + 2) (by omega) (by omega) _).trans (if_neg (by omega))
      · have hkeys : ∀ j, pos ≤ j → j ≤ i → keyOfInt (j + 1) ≠ keyOfInt (i + 2) :=
          fun j _ hji heq ↦ by
            have := keyOfInt_injective (m := j + 1) (n := i + 2) (by omega) (by omega) heq
            omega
        exact (getKey_shiftUp_of_ne hkeys).trans ((getKey_setInt ..).trans (if_pos rfl))

/-! ## Moving down -/

theorem getKey_shiftDown_of_ne (h : ∀ j, pos ≤ j → j < pos + n → keyOfInt j ≠ k) :
    (t.shiftDown n pos).getKey k = t.getKey k := by
  induction n generalizing t pos with
  | zero => rfl
  | succ n ih =>
      rw [shiftDown, ih fun j hj hjn ↦ h j (by omega) (by omega), getKey_setInt]
      exact if_neg (h pos (Nat.le_refl _) (by omega))

/-- Every value has been moved before its key is given another. -/
theorem getInt_shiftDown (hn : pos + n ≤ 2 ^ 53) (hj : pos ≤ j) (hjn : j < pos + n) :
    (t.shiftDown n pos).getInt j = t.getInt (j + 1) := by
  induction n generalizing t pos with
  | zero => omega
  | succ n ih =>
      rw [shiftDown]
      rcases hj.eq_or_lt with rfl | hlt
      · have hkeys : ∀ j, pos + 1 ≤ j → j < pos + 1 + n → keyOfInt j ≠ keyOfInt pos :=
          fun j hj hjn heq ↦ by
            have := keyOfInt_injective (by omega) (by omega) heq
            omega
        exact (getKey_shiftDown_of_ne hkeys).trans ((getKey_setInt ..).trans (if_pos rfl))
      · rw [ih (by omega) hlt (by omega)]
        exact (getInt_setInt (j := j + 1) (by omega) (by omega) _).trans (if_neg (by omega))

theorem shiftDown_add (t : Table) (m n pos : Nat) :
    t.shiftDown (m + n) pos = (t.shiftDown m pos).shiftDown n (pos + m) := by
  induction m generalizing t pos with
  | zero => rw [Nat.zero_add]; rfl
  | succ m ih => rw [Nat.succ_add, shiftDown, shiftDown, ih, Nat.add_right_comm, Nat.add_assoc]

/-! ## Insertion -/

theorem getElem_slice (h : j < (t.slice 1 n).length) : (t.slice 1 n)[j] = t.getInt (j + 1) := by
  simp [slice, Int.add_comm]

@[simp] theorem length_slice (t : Table) (i : Int) (n : Nat) : (t.slice i n).length = n := by
  simp [slice]

section Insert

variable (hp : p ≤ t.length)

include hp

/-- Only the keys from the place on that end with the one after the sequence part are given
values. -/
theorem getKey_insert_of_ne (h : ∀ i, p ≤ i → i ≤ t.length → keyOfInt (i + 1) ≠ k) :
    (t.insert (p + 1) v).getKey k = t.getKey k := by
  rw [insert, getKey_setInt]
  refine (if_neg (h p (Nat.le_refl p) hp)).trans (getKey_shiftUp_of_ne fun j hj ↦ ?_)
  exact h j (Nat.le_of_succ_le hj)

theorem getInt_insert_of_lt (hlength : t.length < 2 ^ 53) (hi : i < p) :
    (t.insert (p + 1) v).getInt (i + 1) = t.getInt (i + 1) := by
  refine getKey_insert_of_ne hp fun j hj hjn heq ↦ ?_
  have := keyOfInt_injective (m := j + 1) (n := i + 1) (by omega) (by omega) heq
  omega

omit hp in
theorem getInt_insert_self (t : Table) (pos : Nat) (v : Value) :
    (t.insert pos v).getInt pos = v :=
  (getKey_setInt ..).trans (if_pos rfl)

theorem getInt_insert_of_gt (hlength : t.length < 2 ^ 53) (hi : p < i) (hin : i ≤ t.length) :
    (t.insert (p + 1) v).getInt (i + 1) = t.getInt i := by
  rw [insert]
  refine (getInt_setInt (j := i + 1) (by omega) (by omega) v).trans ((if_neg (by omega)).trans ?_)
  exact getInt_shiftUp (Nat.succ_pos p) hlength hi hin

/-- As lists, the value is inserted at the index of its place. -/
theorem slice_insert (hlength : t.length < 2 ^ 53) :
    (t.insert (p + 1) v).slice 1 (t.length + 1) = (t.slice 1 t.length).insertIdx p v := by
  refine List.ext_getElem (by simp [List.length_insertIdx, hp]) fun i hi hi' ↦ ?_
  rw [length_slice] at hi
  rw [getElem_slice, List.getElem_insertIdx]
  rcases Nat.lt_trichotomy i p with hlt | rfl | hgt
  · rw [dif_pos hlt, getElem_slice, getInt_insert_of_lt hp hlength hlt]
  · rw [dif_neg (Nat.lt_irrefl i), dif_pos rfl]
    exact getInt_insert_self t (i + 1) v
  · rw [dif_neg (by omega), dif_neg (by omega), getElem_slice,
      getInt_insert_of_gt hp hlength hgt (by omega)]
    congr 1
    omega

end Insert

/-! ## Removal -/

/-- The table whose first `n` integers hold values, without the one at `pos`. -/
def closeGap (t : Table) (pos n : Nat) : Table := (t.shiftDown (n - pos) pos).setInt n .nil

theorem remove_eq (h : pos ≤ t.length) :
    t.remove pos = (t.getInt pos, t.closeGap pos t.length) := by
  unfold remove
  dsimp only
  rw [if_pos h]
  rfl

/-- Only the keys from the place on are given values. -/
theorem getKey_closeGap_of_ne (hp : p < n) (h : ∀ i, p ≤ i → i < n → keyOfInt (i + 1) ≠ k) :
    (t.closeGap (p + 1) n).getKey k = t.getKey k := by
  have hlast : keyOfInt n ≠ k := by
    have hlast := h (n - 1) (by omega) (by omega)
    rwa [show ((n - 1 : Nat) : Int) + 1 = n by omega] at hlast
  rw [closeGap, getKey_setInt, if_neg hlast]
  refine getKey_shiftDown_of_ne fun j hj hjn ↦ ?_
  have hkey := h (j - 1) (by omega) (by omega)
  rwa [show ((j - 1 : Nat) : Int) + 1 = j by omega] at hkey

theorem getInt_closeGap_of_lt (hn : n ≤ 2 ^ 53) (hp : p < n) (hi : i < p) :
    (t.closeGap (p + 1) n).getInt (i + 1) = t.getInt (i + 1) := by
  refine getKey_closeGap_of_ne hp fun j hj hjn heq ↦ ?_
  have := keyOfInt_injective (m := j + 1) (n := i + 1) (by omega) (by omega) heq
  omega

theorem getInt_closeGap (hn : n ≤ 2 ^ 53) (hi : p ≤ i) (hin : i + 1 < n) :
    (t.closeGap (p + 1) n).getInt (i + 1) = t.getInt (i + 2) := by
  rw [closeGap]
  refine (getInt_setInt (j := i + 1) hn (by omega) .nil).trans ((if_neg (by omega)).trans ?_)
  exact getInt_shiftDown (j := i + 1) (by omega) (by omega) (by omega)

@[simp] theorem getInt_closeGap_self (t : Table) (pos n : Nat) :
    (t.closeGap pos n).getInt n = .nil :=
  (getKey_setInt ..).trans (if_pos rfl)

/-- As lists, the value is erased at the index of its place. -/
theorem slice_closeGap (hn : n ≤ 2 ^ 53) (hp : p < n) :
    (t.closeGap (p + 1) n).slice 1 (n - 1) = (t.slice 1 n).eraseIdx p := by
  refine List.ext_getElem (by simp [List.length_eraseIdx, hp]) fun i hi hi' ↦ ?_
  rw [length_slice] at hi
  rw [getElem_slice, List.getElem_eraseIdx]
  split
  · next hlt => rw [getElem_slice, getInt_closeGap_of_lt hn hp hlt]
  · next hge =>
    rw [getElem_slice, getInt_closeGap hn (Nat.le_of_not_lt hge) (by omega)]
    rfl

@[simp] theorem metatable_closeGap (t : Table) (pos n : Nat) :
    (t.closeGap pos n).metatable = t.metatable := by
  rw [closeGap, metatable_setInt, metatable_shiftDown]

/-! ## Removal after insertion -/

/-- `2 ^ 53 + 1` is no double, and `2 ^ 53` is nearest to it. -/
theorem keyOfInt_two_pow_succ : keyOfInt ↑(2 ^ 53 + 1) = keyOfInt ↑(2 ^ 53) := by
  have hnearest : Number.nearest (2 ^ 53 + 1) = 2 ^ 53 := by decide
  have hwhole := Number.Whole.ofNat (2 ^ 53 + 1) (Number.log2_nearest_lt (by omega))
  rw [hnearest] at hwhole
  have hofNat : intKey ↑(2 ^ 53 + 1) = intKey ↑(2 ^ 53) :=
    hwhole.unique (Number.whole_ofNat (Nat.le_refl _))
  rw [keyOfInt, hofNat, keyOfInt]

theorem keyOfInt_two_pow_add_two_ne (hi : i < 2 ^ 53) :
    keyOfInt ↑(2 ^ 53 + 2) ≠ keyOfInt (i + 1) := by
  intro heq
  have hwhole := Number.Whole.ofNat (2 ^ 53 + 2) (Number.log2_nearest_lt (by omega))
  rw [show Number.nearest (2 ^ 53 + 2) = 2 ^ 53 + 2 by decide] at hwhole
  have := eq_of_keyOfInt (n := i + 1) hwhole (Number.whole_ofNat (by omega)) heq
  omega

/-- With all integers below `2 ^ 53` listed, no other key is. -/
theorem getKey_eq_nil_of_full (hsize : t.toList.length < 2 ^ 53) (hn : t.length + 1 = 2 ^ 53)
    (hk : k ∉ firstKeys t.length) : t.getKey k = .nil := by
  by_contra hvalue
  have hnodup : (k :: firstKeys t.length).Nodup := (nodup_firstKeys (by omega)).cons hk
  have hlength := length_le_length_toList (t := t) hnodup fun k' hk' ↦ by
    rcases List.mem_cons.1 hk' with rfl | hk'
    · exact hvalue
    · obtain ⟨i, hi, rfl⟩ := mem_firstKeys.1 hk'
      exact getInt_ne_nil_of_lt_length hi
  rw [List.length_cons, length_firstKeys] at hlength
  omega

section RemoveInsert

variable (hsize : t.toList.length < 2 ^ 53) (hp : p ≤ t.length) (hv : v ≠ .nil)
  (hnil : t.getInt (t.length + 2) = .nil)

include hsize hp

theorem getInt_insert_ne_nil (hv : v ≠ .nil) (hi : i ≤ t.length) :
    (t.insert (p + 1) v).getInt (i + 1) ≠ .nil := by
  have hlength := length_lt hsize
  rcases Nat.lt_trichotomy i p with hlt | rfl | hgt
  · rw [getInt_insert_of_lt hp hlength hlt]
    exact getInt_ne_nil_of_lt_length (by omega)
  · exact (getInt_insert_self t (i + 1) v).trans_ne hv
  · rw [getInt_insert_of_gt hp hlength hgt hi]
    have hvalue := getInt_ne_nil_of_lt_length (t := t) (i := i - 1) (by omega)
    rwa [show ((i - 1 : Nat) : Int) + 1 = i by omega] at hvalue

include hv hnil

/-- The sequence part grows by one.  Only where it then ends with `2 ^ 53` it seems to be longer by
one more, as the integer after that is the same key. -/
theorem length_insert : (t.insert (p + 1) v).length = t.length + 1 ∨
    t.length + 1 = 2 ^ 53 ∧ (t.insert (p + 1) v).length = t.length + 2 := by
  have hlength := length_lt hsize
  have hle : t.length + 1 ≤ (t.insert (p + 1) v).length :=
    le_length hlength fun i hi ↦ getInt_insert_ne_nil hsize hp hv (Nat.le_of_lt_succ hi)
  rcases Nat.lt_or_ge (t.length + 1) (2 ^ 53) with hlt | hge
  · left
    refine Nat.le_antisymm (length_le_of_getInt ?_) hle
    refine (getKey_insert_of_ne hp fun i _ hi heq ↦ ?_).trans hnil
    have := keyOfInt_injective (m := i + 1) (n := t.length + 2) (by omega) (by omega) heq
    omega
  · have hfull : t.length + 1 = 2 ^ 53 := by omega
    have hbeyond : (t.insert (p + 1) v).getInt ↑(2 ^ 53 + 2) = .nil := by
      refine (getKey_insert_of_ne hp fun i _ hi heq ↦ ?_).trans
        (getKey_eq_nil_of_full hsize hfull fun hmem ↦ ?_)
      · exact keyOfInt_two_pow_add_two_ne (by omega) heq.symm
      · obtain ⟨i, hi, heq⟩ := mem_firstKeys.1 hmem
        exact keyOfInt_two_pow_add_two_ne (by omega) heq.symm
    have hle' : (t.insert (p + 1) v).length ≤ 2 ^ 53 + 1 := length_le_of_getInt hbeyond
    omega

/-- Removal closes the gap in the sequence that insertion has made. -/
theorem getKey_remove_insert_eq (k : Key) : ((t.insert (p + 1) v).remove (p + 1)).2.getKey k =
    ((t.insert (p + 1) v).closeGap (p + 1) (t.length + 1)).getKey k := by
  rcases length_insert hsize hp hv hnil with hlength | ⟨hfull, hlength⟩
  · rw [remove_eq (by omega), hlength]
  · -- The last integer is moved to itself.
    have hlast : keyOfInt ↑(t.length + 2) = keyOfInt ↑(t.length + 1) := by
      rw [show t.length + 2 = 2 ^ 53 + 1 by omega, hfull]
      exact keyOfInt_two_pow_succ
    rw [remove_eq (by omega), hlength]
    dsimp only
    rw [closeGap, closeGap, show t.length + 2 - (p + 1) = t.length + 1 - (p + 1) + 1 by omega,
      shiftDown_add, getKey_setInt, getKey_setInt, hlast]
    split
    · rfl
    · next hne =>
      refine (getKey_setInt ..).trans (if_neg ?_)
      rwa [show p + 1 + (t.length + 1 - (p + 1)) = t.length + 1 by omega]

/-- Every key holds what it held. -/
theorem getKey_remove_insert (k : Key) :
    ((t.insert (p + 1) v).remove (p + 1)).2.getKey k = t.getKey k := by
  have hlength := length_lt hsize
  rw [getKey_remove_insert_eq hsize hp hv hnil]
  by_cases hk : ∃ i, p ≤ i ∧ i ≤ t.length ∧ keyOfInt (i + 1) = k
  · obtain ⟨i, hpi, hi, rfl⟩ := hk
    change ((t.insert (p + 1) v).closeGap (p + 1) (t.length + 1)).getInt (i + 1) = t.getInt (i + 1)
    rcases hi.lt_or_eq with hlt | rfl
    · rw [getInt_closeGap (by omega) hpi (by omega)]
      exact getInt_insert_of_gt (i := i + 1) hp hlength (by omega) (by omega)
    · exact (getInt_closeGap_self ..).trans (getInt_length hsize).symm
  · have hne : ∀ i, p ≤ i → i ≤ t.length → keyOfInt (i + 1) ≠ k :=
      fun i hpi hi heq ↦ hk ⟨i, hpi, hi, heq⟩
    rw [getKey_closeGap_of_ne (by omega) fun i hpi hi ↦ hne i hpi (Nat.le_of_lt_succ hi),
      getKey_insert_of_ne hp hne]

end RemoveInsert

/-! ## Sequences with a value more or less -/

/-- Two tables with one metatable hold the same under all keys but the first integers. -/
structure AgreeAfter (n : Nat) (t t' : Table) : Prop where
  get : ∀ key, (∀ i < n, key.rawEqual (.number (intKey (i + 1))) = false) → t'.get key = t.get key
  metatable : t'.metatable = t.metatable

theorem AgreeAfter.of_getKey (hmetatable : t'.metatable = t.metatable)
    (h : ∀ k, (∀ i < n, keyOfInt (i + 1) ≠ k) → t'.getKey k = t.getKey k) : AgreeAfter n t t' where
  get key hkey := by
    unfold Table.get
    split
    · next k hk =>
      exact h k fun i hi heq ↦ notMem_firstKeys hk hkey (mem_firstKeys.2 ⟨i, hi, heq⟩)
    · rfl
  metatable := hmetatable

/-- In a table of fewer than `2 ^ 53` entries, counting the integers that have values ends, and at
the least one such that the next has none.  As lists, insertion at a place of that sequence or right
after it inserts the value, and removal at a place of the sequence erases the value there, which is
returned, and leaves no value under the last key.  Neither of them changes what is held under any
other key, or the metatable.  If the two keys after the sequence have no values, then removal after
insertion returns the value that was inserted, and every key holds what it held before. -/
theorem insert_remove_shift (t : Table) (hsize : t.toList.length < 2 ^ 53) :
    let n := t.length
    (IsLeast {m : Nat | t.getInt (m + 1) = .nil} n ∧ ∀ fuel, n ≤ fuel → t.borderFrom fuel 0 = n) ∧
    (∀ pos v, 0 < pos → pos ≤ n + 1 →
      (t.insert pos v).slice 1 (n + 1) = (t.slice 1 n).insertIdx (pos - 1) v ∧
        AgreeAfter (n + 1) t (t.insert pos v)) ∧
    (∀ pos, 0 < pos → pos ≤ n →
      (t.remove pos).1 = t.getInt pos ∧
        (t.remove pos).2.slice 1 (n - 1) = (t.slice 1 n).eraseIdx (pos - 1) ∧
        (t.remove pos).2.getInt n = .nil ∧ AgreeAfter n t (t.remove pos).2) ∧
    (t.getInt (n + 2) = .nil → ∀ pos v, 0 < pos → pos ≤ n + 1 → v ≠ .nil →
      ((t.insert pos v).remove pos).1 = v ∧
        ∀ key, ((t.insert pos v).remove pos).2.get key = t.get key) := by
  intro n
  have hlength : n < 2 ^ 53 := length_lt hsize
  refine ⟨⟨⟨getInt_length hsize, fun m hm ↦ length_le_of_getInt hm⟩, fun fuel hfuel ↦ ?_⟩,
    fun pos v hpos hle ↦ ?_, fun pos hpos hle ↦ ?_, fun hnil pos v hpos hle hv ↦ ?_⟩
  · exact borderFrom_eq hfuel (fun i ↦ getInt_ne_nil_of_lt_length) (getInt_length hsize)
  · obtain ⟨p, rfl⟩ := Nat.exists_eq_add_of_lt hpos
    rw [Nat.zero_add] at hle ⊢
    have hp : p ≤ n := Nat.le_of_succ_le_succ hle
    refine ⟨slice_insert hp hlength, .of_getKey (metatable_insert ..) fun k hk ↦ ?_⟩
    exact getKey_insert_of_ne hp fun i _ hi ↦ hk i (Nat.lt_succ_of_le hi)
  · obtain ⟨p, rfl⟩ := Nat.exists_eq_add_of_lt hpos
    rw [Nat.zero_add] at hle ⊢
    rw [remove_eq hle]
    refine ⟨rfl, slice_closeGap hlength.le hle, getInt_closeGap_self .., ?_⟩
    exact .of_getKey (metatable_closeGap ..) fun k hk ↦ getKey_closeGap_of_ne hle fun i _ ↦ hk i
  · obtain ⟨p, rfl⟩ := Nat.exists_eq_add_of_lt hpos
    rw [Nat.zero_add] at hle ⊢
    have hp : p ≤ n := Nat.le_of_succ_le_succ hle
    refine ⟨getInt_insert_self t (p + 1) v, fun key ↦ ?_⟩
    unfold get
    split
    · exact getKey_remove_insert hsize hp hv hnil _
    · rfl

/-- A value between two others. -/
theorem insert_remove_shift_between :
    let t := (Table.empty.setInt 1 (.string "a")).setInt 2 (.string "c")
    t.toList.length < 2 ^ 53 ∧ t.length = 2 ∧
      (t.insert 2 (.string "b")).slice 1 3 = [.string "a", .string "b", .string "c"] ∧
      (t.remove 1).1 = .string "a" ∧ (t.remove 1).2.slice 1 1 = [.string "c"] := by
  intro t
  have hsize : t.toList.length < 2 ^ 53 := by
    have hfirst := size_setInt_le .empty 1 (.string "a")
    have hsecond := size_setInt_le (Table.empty.setInt 1 (.string "a")) 2 (.string "c")
    exact (t.length_toList_le.trans (hsecond.trans (Nat.succ_le_succ hfirst))).trans_lt (by decide)
  have hget {i : Nat} (hi : i ≤ 2 ^ 53) : t.getInt i =
      if 2 = i then .string "c" else if 1 = i then .string "a" else Table.empty.getInt i :=
    (getInt_setInt (i := 2) (by decide) hi _).trans <|
      congrArg (ite (2 = i) _) (getInt_setInt (i := 1) (by decide) hi _)
  have hone : t.getInt 1 = .string "a" := hget (i := 1) (by decide)
  have htwo : t.getInt 2 = .string "c" := hget (i := 2) (by decide)
  have hthree : t.getInt 3 = .nil :=
    (hget (i := 3) (by decide)).trans (getKey_of_index_none (by simp [empty]))
  have hslice : t.slice 1 2 = [.string "a", .string "c"] := by
    simp [slice, List.range_succ, hone, htwo]
  have hlength : t.length = 2 := by
    refine length_eq (by decide) (fun i hi ↦ ?_) hthree
    obtain rfl | rfl : i = 0 ∨ i = 1 := by omega
    · exact hone.trans_ne Value.noConfusion
    · exact htwo.trans_ne Value.noConfusion
  obtain ⟨-, hinsert, hremove, -⟩ := insert_remove_shift t hsize
  rw [hlength, hslice] at hinsert hremove
  exact ⟨hsize, hlength, (hinsert 2 _ (by decide) (by decide)).1,
    (hremove 1 (by decide) (by decide)).1.trans hone,
    (hremove 1 (by decide) (by decide)).2.1⟩

end LuaEmbed.Table
