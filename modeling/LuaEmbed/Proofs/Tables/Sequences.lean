import LuaEmbed.Proofs.Numbers.Rounding
import LuaEmbed.Proofs.Tables.Traversal

/-!
# Integer keys

The integers up to `2 ^ 53` are different doubles, and so they are different keys.  A table with
fewer listed entries than that has a sequence part that is shorter, so what is said here of the keys
of a sequence holds of all of it.
-/

namespace LuaEmbed

namespace Number

variable {m n : Nat}

theorem whole_ofNat (h : n ≤ 2 ^ 53) : Whole (ofNat n) n := by
  rcases h.lt_or_eq with h | rfl
  · exact .ofNat_of_lt h
  · have hnearest : nearest (2 ^ 53) = 2 ^ 53 := by
      refine nearest_of_dvd ?_
      rw [ulp, Nat.log2_two_pow]
      exact ⟨2 ^ 52, rfl⟩
    have hwhole := Whole.ofNat (2 ^ 53) (by rw [hnearest, Nat.log2_two_pow]; omega)
    rwa [hnearest] at hwhole

/-- Equal doubles are one integer. -/
theorem ofNat_injective (hm : Whole (ofNat m) m) (hn : Whole (ofNat n) n)
    (h : (ofNat m == ofNat n) = true) : m = n := by
  have hzero {k : Nat} (hk : Whole (ofNat k) k) (h : (ofNat k == 0) = true) : k = 0 := by
    have hwhole := hk.unpack
    rcases beq_zero_iff.1 h with hzero | hzero
    · rw [hzero] at hwhole
      cases hwhole
      rfl
    · -- No number is the negative zero.
      rw [hzero] at hwhole
      cases hwhole
  rcases (beq_iff (isNaN_ofNat m) (isNaN_ofNat n)).1 h with heq | ⟨hm', hn'⟩
  · rw [heq] at hm
    exact hm.value_unique hn
  · rw [hzero hm hm', hzero hn hn']

end Number

namespace Table

variable {t : Table} {k : Key} {v : Value} {vs : List Value} {i j m n : Nat}

/-! ## Keys of integers -/

/-- Integers that are doubles are different keys. -/
theorem eq_of_keyOfInt (hm : Number.Whole (Number.ofNat m) m) (hn : Number.Whole (Number.ofNat n) n)
    (h : keyOfInt m = keyOfInt n) : m = n := by
  refine Number.ofNat_injective hm hn ((Key.number_beq_iff (Number.isNaN_ofNat m)).2 ?_)
  exact (ofValue_intKey m).trans ((congrArg _ h).trans (ofValue_intKey n).symm)

theorem keyOfInt_injective (hm : m ≤ 2 ^ 53) (hn : n ≤ 2 ^ 53) (h : keyOfInt m = keyOfInt n) :
    m = n :=
  eq_of_keyOfInt (Number.whole_ofNat hm) (Number.whole_ofNat hn) h

theorem getKey_setInt (t : Table) (n : Int) (v : Value) (k : Key) :
    (t.setInt n v).getKey k = if keyOfInt n = k then v else t.getKey k :=
  getKey_setKey ..

theorem getKey_setFrom_of_ne (h : ∀ j < vs.length, keyOfInt ↑(i + j) ≠ k) :
    (t.setFrom i vs).getKey k = t.getKey k := by
  induction vs generalizing t i with
  | nil => rfl
  | cons v vs ih =>
      have hrest : ∀ j < vs.length, keyOfInt ↑(i + 1 + j) ≠ k := fun j hj ↦ by
        rw [Nat.add_right_comm]
        exact h (j + 1) (Nat.succ_lt_succ hj)
      have hfirst : keyOfInt i ≠ k := h 0 (Nat.zero_lt_succ _)
      rw [setFrom, ih hrest, getKey_setInt, if_neg hfirst]

theorem getInt_setFrom (hrange : i + vs.length ≤ 2 ^ 53 + 1) (hj : j < vs.length) :
    (t.setFrom i vs).getInt ↑(i + j) = vs[j] := by
  induction vs generalizing t i j with
  | nil => exact absurd hj (Nat.not_lt_zero j)
  | cons v vs ih =>
      rw [List.length_cons] at hrange hj
      rw [setFrom]
      cases j with
      | zero =>
          have hne : ∀ j < vs.length, keyOfInt ↑(i + 1 + j) ≠ keyOfInt ↑(i + 0) := fun j hj heq ↦ by
            have := keyOfInt_injective (by omega) (by omega) heq
            omega
          rw [getInt, getKey_setFrom_of_ne hne, getKey_setInt]
          exact if_pos rfl
      | succ j =>
          have hrest := ih (t := t.setInt i v) (i := i + 1) (j := j) (by omega) (by omega)
          rw [← Nat.add_assoc, Nat.add_right_comm]
          exact hrest

theorem slice_setFrom (hrange : vs.length ≤ 2 ^ 53) : (t.setFrom 1 vs).slice 1 vs.length = vs := by
  refine List.ext_getElem (by simp [slice]) fun j hj hj' ↦ ?_
  have hget := getInt_setFrom (t := t) (i := 1) (by omega) hj'
  simp only [slice, List.getElem_map, List.getElem_range]
  rw [← hget]
  rfl

theorem index_ne_none_of_getInt (h : t.getInt n ≠ .nil) : t.index[keyOfInt n]? ≠ none :=
  fun hnone ↦ h (getKey_of_index_none hnone)

/-- Keys that have entries keep them, in their places. -/
theorem names_setFrom (h : ∀ j < vs.length, t.index[keyOfInt ↑(i + j)]? ≠ none) :
    (t.setFrom i vs).names = t.names := by
  induction vs generalizing t i with
  | nil => rfl
  | cons v vs ih =>
      have hnames : (t.setInt i v).names = t.names := by
        rcases names_setKey_cases t (ofValue_intKey i) v with ⟨hnone, -⟩ | ⟨-, hnames⟩
        · exact (h 0 (Nat.zero_lt_succ _) hnone).elim
        · exact hnames
      rw [setFrom, ih, hnames]
      intro j hj
      rw [index_congr hnames, Nat.add_right_comm]
      exact h (j + 1) (Nat.succ_lt_succ hj)

/-! ## Lengths -/

theorem length_toList_le (t : Table) : t.toList.length ≤ t.entries.size := by
  simpa using t.toList_sublist_names.length_le

theorem size_setInt_le (t : Table) (n : Int) (v : Value) :
    (t.setInt n v).entries.size ≤ t.entries.size + 1 := by
  rw [← length_names, ← length_names, setInt]
  rcases names_setKey_cases t (ofValue_intKey n) v with ⟨-, -, hnames⟩ | ⟨-, hnames⟩ <;>
    simp [hnames]

theorem getInt_ne_nil_of_lt_borderFrom {fuel : Nat} (hn : n ≤ i) (h : i < t.borderFrom fuel n) :
    t.getInt (i + 1) ≠ .nil := by
  induction fuel generalizing n with
  | zero => exact absurd (hn.trans_lt h) (Nat.lt_irrefl n)
  | succ fuel ih =>
      rw [borderFrom] at h
      split at h
      · exact absurd (hn.trans_lt h) (Nat.lt_irrefl n)
      · next hvalue =>
        rcases hn.eq_or_lt with rfl | hlt
        · exact fun hnil ↦ hvalue (Value.isNil_iff.2 hnil)
        · exact ih hlt h

/-- All keys of the sequence part have values. -/
theorem getInt_ne_nil_of_lt_length (h : i < t.length) : t.getInt (i + 1) ≠ .nil :=
  getInt_ne_nil_of_lt_borderFrom (Nat.zero_le i) h

/-- A key with a value has an entry. -/
theorem exists_entry_of_getKey (h : t.getKey k ≠ .nil) :
    ∃ e ∈ t.entries, e.key = k ∧ e.value ≠ .nil := by
  unfold getKey at h
  split at h
  · next e he =>
    obtain ⟨hkey, hmem⟩ := entry?_eq_some_iff.1 he
    exact ⟨e, hmem, hkey, h⟩
  · exact (h rfl).elim

/-- Keys with values are among those that are listed. -/
theorem length_le_length_toList {keys : List Key} (hnodup : keys.Nodup)
    (h : ∀ k ∈ keys, t.getKey k ≠ .nil) : keys.length ≤ t.toList.length := by
  have hsubset : keys.map Except.ok ⊆ t.toList.map fun p ↦ Key.ofValue p.1 := by
    intro key hkey
    obtain ⟨k, hk, rfl⟩ := List.mem_map.1 hkey
    obtain ⟨e, hmem, rfl, hvalue⟩ := exists_entry_of_getKey (h k hk)
    exact List.mem_map.2 ⟨(e.name, e.value), mem_toList.2 ⟨e, hmem, rfl, rfl, hvalue⟩, e.named⟩
  have hnodup := hnodup.map fun _ _ ↦ Except.ok.inj (ε := KeyFault)
  simpa using (List.subperm_of_subset hnodup hsubset).length_le

/-- The keys of the first integers. -/
def firstKeys (n : Nat) : List Key := (List.range n).map fun i : Nat ↦ keyOfInt (i + 1)

@[simp] theorem length_firstKeys (n : Nat) : (firstKeys n).length = n := by simp [firstKeys]

theorem mem_firstKeys : k ∈ firstKeys n ↔ ∃ i < n, keyOfInt (i + 1) = k := by simp [firstKeys]

theorem nodup_firstKeys (hn : n ≤ 2 ^ 53) : (firstKeys n).Nodup := by
  refine List.Nodup.map_on (fun i hi j hj heq ↦ ?_) List.nodup_range
  rw [List.mem_range] at hi hj
  have := keyOfInt_injective (m := i + 1) (n := j + 1) (by omega) (by omega) heq
  omega

/-- A value that is raw-equal to none of the first integers is none of their keys. -/
theorem notMem_firstKeys {key : Value} (hk : Key.ofValue key = .ok k)
    (h : ∀ i < n, key.rawEqual (.number (intKey (i + 1))) = false) : k ∉ firstKeys n := by
  intro hmem
  obtain ⟨i, hi, rfl⟩ := mem_firstKeys.1 hmem
  have hself := (Key.rawEqual_iff (Key.isKey_of_ofValue hk)).2
    (hk.trans (ofValue_intKey (i + 1)).symm)
  exact nomatch (h i hi).symm.trans hself

/-- The first integers that have values are among the keys that are listed. -/
theorem le_length_toList (hn : n ≤ 2 ^ 53) (h : ∀ i < n, t.getInt (i + 1) ≠ .nil) :
    n ≤ t.toList.length := by
  have hlength := length_le_length_toList (t := t) (nodup_firstKeys hn) fun k hk ↦ by
    obtain ⟨i, hi, rfl⟩ := mem_firstKeys.1 hk
    exact h i hi
  rwa [length_firstKeys] at hlength

theorem length_lt (h : t.toList.length < 2 ^ 53) : t.length < 2 ^ 53 := by
  refine Nat.lt_of_not_le fun hle ↦ Nat.not_le_of_lt h (le_length_toList (Nat.le_refl _) ?_)
  exact fun i hi ↦ getInt_ne_nil_of_lt_length (hi.trans_le hle)

end Table

end LuaEmbed
