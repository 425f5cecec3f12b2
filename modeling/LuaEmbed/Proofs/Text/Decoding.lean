import LuaEmbed.Text.Utf8

/-!
# Reading text back

The bytes of a text are read back as that text.  After the bytes of a character the decoder has read
that character and is between two characters again, so the rest is an induction on the characters.
The bytes that make up a text are the well-formed ones, and these alone are given back.
-/

namespace LuaEmbed.Text

/-! ## Bytes of a text -/

theorem bytes_ofList (cs : List Char) :
    bytes (String.ofList cs) = cs.flatMap String.utf8EncodeChar := by
  rw [bytes, String.toByteArray_ofList, List.utf8Encode, List.toList_data_toByteArray]

theorem bytes_eq (s : String) : bytes s = s.toList.flatMap String.utf8EncodeChar := by
  rw [← bytes_ofList, String.ofList_toList]

theorem bytes_append (s t : String) : bytes (s ++ t) = bytes s ++ bytes t := by
  rw [bytes_eq, String.toList_append, List.flatMap_append, ← bytes_eq, ← bytes_eq]

namespace Decoder

variable {n bits more : Nat} {low high : UInt8}

/-! ## One byte -/

theorem toNat_byte (h : n < 0x100) : (UInt8.ofNat n).toNat = n := UInt8.toNat_ofNat_of_lt' h

/-- The first byte of a character by its number. -/
theorem start_eq (h : n < 0x100) : start (.ofNat n) =
    if n < 0x80 then ([Char.ofNat n], ready)
    else if n < 0xC2 then ([replacement], ready)
    else if n < 0xE0 then ([], inside (n % 32) 0 0x80 0xBF)
    else if n < 0xF0 then
      ([], inside (n % 16) 1 (if n = 0xE0 then 0xA0 else 0x80) (if n = 0xED then 0x9F else 0xBF))
    else if n < 0xF5 then
      ([], inside (n % 8) 2 (if n = 0xF0 then 0x90 else 0x80) (if n = 0xF4 then 0x8F else 0xBF))
    else ([replacement], ready) := by
  simp only [start, UInt8.lt_iff_toNat_lt, beq_iff_eq, ← UInt8.toNat_inj, toNat_byte h,
    UInt8.reduceToNat]

/-- A byte in the range that is due goes on with the character, or ends it. -/
theorem step_inside (hlow : low.toNat ≤ n) (hhigh : n ≤ high.toNat) :
    step (inside bits more low high) (.ofNat n) =
      match more with
      | 0 => ([Char.ofNat (bits * 64 + n % 64)], ready)
      | more + 1 => ([], inside (bits * 64 + n % 64) more 0x80 0xBF) := by
  have hbyte := toNat_byte (n := n) (Nat.lt_of_le_of_lt hhigh high.toNat_lt)
  have hrange : (low ≤ .ofNat n && .ofNat n ≤ high) = true := by
    simp only [UInt8.le_iff_toNat_le, hbyte, hlow, hhigh, decide_true, Bool.and_self]
  cases more <;> rw [step.eq_def] <;> simp only [hrange, if_true, hbyte]

/-! ## One character

The bytes of the code point `n` are read as that character, for each of the four lengths. -/

variable {bs : List UInt8}

theorem run_one (h : n ≤ 0x7F) : ready.run (.ofNat n :: bs) = Char.ofNat n :: ready.run bs := by
  rw [run_cons, step, start_eq (by omega), if_pos (by omega)]
  rfl

theorem run_two (hlow : 0x7F < n) (hhigh : n ≤ 0x7FF) :
    ready.run (.ofNat (n / 64 % 0x20 + 0xC0) :: .ofNat (n % 0x40 + 0x80) :: bs) =
      Char.ofNat n :: ready.run bs := by
  rw [run_cons, step, start_eq (by omega), if_neg (by omega), if_neg (by omega), if_pos (by omega),
    List.nil_append, run_cons, step_inside (by change 0x80 ≤ _; omega) (by change _ ≤ 0xBF; omega)]
  have hn : (n / 64 % 0x20 + 0xC0) % 32 * 64 + (n % 0x40 + 0x80) % 64 = n := by omega
  rw [hn]
  rfl

theorem run_three (hlow : 0x7FF < n) (hhigh : n ≤ 0xFFFF) (hvalid : n < 0xD800 ∨ 0xDFFF < n) :
    ready.run (.ofNat (n / 4096 % 0x10 + 0xE0) :: .ofNat (n / 64 % 0x40 + 0x80) ::
      .ofNat (n % 0x40 + 0x80) :: bs) = Char.ofNat n :: ready.run bs := by
  rw [run_cons, step, start_eq (by omega), if_neg (by omega), if_neg (by omega), if_neg (by omega),
    if_pos (by omega), List.nil_append, run_cons, step_inside, List.nil_append, run_cons,
    step_inside (by change 0x80 ≤ _; omega) (by change _ ≤ 0xBF; omega)]
  · have hn : ((n / 4096 % 0x10 + 0xE0) % 16 * 64 + (n / 64 % 0x40 + 0x80) % 64) * 64 +
        (n % 0x40 + 0x80) % 64 = n := by omega
    rw [hn]
    rfl
  · split
    · change 0xA0 ≤ _; omega
    · change 0x80 ≤ _; omega
  · split
    · change _ ≤ 0x9F; omega
    · change _ ≤ 0xBF; omega

theorem run_four (hlow : 0xFFFF < n) (hhigh : n < 0x110000) :
    ready.run (.ofNat (n / 262144 % 0x08 + 0xF0) :: .ofNat (n / 4096 % 0x40 + 0x80) ::
      .ofNat (n / 64 % 0x40 + 0x80) :: .ofNat (n % 0x40 + 0x80) :: bs) =
        Char.ofNat n :: ready.run bs := by
  rw [run_cons, step, start_eq (by omega), if_neg (by omega), if_neg (by omega), if_neg (by omega),
    if_neg (by omega), if_pos (by omega), List.nil_append, run_cons, step_inside, List.nil_append,
    run_cons, step_inside (by change 0x80 ≤ _; omega) (by change _ ≤ 0xBF; omega), List.nil_append,
    run_cons, step_inside (by change 0x80 ≤ _; omega) (by change _ ≤ 0xBF; omega)]
  · have hn : (((n / 262144 % 0x08 + 0xF0) % 8 * 64 + (n / 4096 % 0x40 + 0x80) % 64) * 64 +
        (n / 64 % 0x40 + 0x80) % 64) * 64 + (n % 0x40 + 0x80) % 64 = n := by omega
    rw [hn]
    rfl
  · split
    · change 0x90 ≤ _; omega
    · change 0x80 ≤ _; omega
  · split
    · change _ ≤ 0x8F; omega
    · change _ ≤ 0xBF; omega

theorem run_utf8EncodeChar (c : Char) (bs : List UInt8) :
    ready.run (String.utf8EncodeChar c ++ bs) = c :: ready.run bs := by
  have hvalid : c.toNat < 0xD800 ∨ 0xDFFF < c.toNat ∧ c.toNat < 0x110000 := c.valid
  have hval : c.val.toNat = c.toNat := rfl
  rw [String.utf8EncodeChar, hval, ← congrArg (· :: ready.run bs) (Char.ofNat_toNat c)]
  split
  · next h => exact run_one h
  · next h =>
    split
    · next h' => exact run_two (by omega) h'
    · split
      · next h' => exact run_three (by omega) h' (by omega)
      · exact run_four (by omega) (by omega)

end Decoder

/-- A byte of a character is the character itself or lies outside ASCII. -/
theorem mem_utf8EncodeChar {c : Char} {b : UInt8} (h : b ∈ String.utf8EncodeChar c) :
    b.toNat = c.toNat ∨ 0x80 ≤ b.toNat := by
  have hval : c.val.toNat = c.toNat := rfl
  rw [String.utf8EncodeChar, hval] at h
  split at h
  · next hc =>
    rw [List.mem_singleton.1 h, Decoder.toNat_byte (by omega)]
    exact .inl rfl
  · right
    split at h
    · simp only [List.mem_cons, List.not_mem_nil, or_false] at h
      rcases h with rfl | rfl <;> rw [Decoder.toNat_byte (by omega)] <;> omega
    · split at h
      · simp only [List.mem_cons, List.not_mem_nil, or_false] at h
        rcases h with rfl | rfl | rfl <;> rw [Decoder.toNat_byte (by omega)] <;> omega
      · simp only [List.mem_cons, List.not_mem_nil, or_false] at h
        rcases h with rfl | rfl | rfl | rfl <;> rw [Decoder.toNat_byte (by omega)] <;> omega

/-! ## Whole texts -/

theorem toList_foldl_push (cs : List Char) (s : String) :
    (cs.foldl String.push s).toList = s.toList ++ cs := by
  induction cs generalizing s with
  | nil => rw [List.foldl_nil, List.append_nil]
  | cons c cs ih =>
      rw [List.foldl_cons, ih, String.toList_push, List.append_assoc, List.singleton_append]

/-- What is read of bytes, after what has been read before. -/
theorem toList_finish_foldl_push (bs : List UInt8) (s : String) (d : Decoder) :
    ((bs.foldl Decoder.push (s, d)).2.finish.foldl String.push
      (bs.foldl Decoder.push (s, d)).1).toList = s.toList ++ d.run bs := by
  induction bs generalizing s d with
  | nil => rw [List.foldl_nil, toList_foldl_push, Decoder.run_nil]
  | cons b bs ih =>
      rw [List.foldl_cons, Decoder.push, ih, toList_foldl_push, Decoder.run_cons, List.append_assoc]

theorem toList_decode (bs : List UInt8) : (decode bs).toList = Decoder.ready.run bs :=
  toList_finish_foldl_push bs "" .ready

/-- The bytes of a text denote that text. -/
theorem decode_bytes (s : String) : decode (bytes s) = s := by
  have hrun (cs : List Char) : Decoder.ready.run (cs.flatMap String.utf8EncodeChar) = cs := by
    induction cs with
    | nil => rfl
    | cons c cs ih => rw [List.flatMap_cons, Decoder.run_utf8EncodeChar, ih]
  rw [← String.toList_inj, toList_decode, bytes_eq, hrun]

/-! ## Well-formed bytes -/

variable {bs : List UInt8}

/-- Bytes are well-formed if they encode characters. -/
def WellFormed (bs : List UInt8) : Prop := ByteArray.IsValidUTF8 ⟨bs.toArray⟩

instance (bs : List UInt8) : Decidable (WellFormed bs) :=
  inferInstanceAs (Decidable (ByteArray.IsValidUTF8 _))

theorem wellFormed_bytes (s : String) : WellFormed (bytes s) := s.isValidUTF8

theorem WellFormed.exists_eq_bytes (h : WellFormed bs) : ∃ s, bs = bytes s :=
  ⟨⟨_, h⟩, rfl⟩

/-- The bytes that are read as they are, are the well-formed ones. -/
theorem bytes_decode_eq_iff : bytes (decode bs) = bs ↔ WellFormed bs := by
  constructor
  · intro h
    exact h ▸ wellFormed_bytes (decode bs)
  · intro h
    obtain ⟨s, rfl⟩ := h.exists_eq_bytes
    rw [decode_bytes]

/-- The bytes of characters come apart in front of a byte of ASCII, which is a character. -/
theorem exists_split {cs : List Char} {xs ys : List UInt8} {b : UInt8} (hb : b.toNat < 0x80)
    (h : cs.flatMap String.utf8EncodeChar = xs ++ b :: ys) :
    ∃ front back : List Char, xs = front.flatMap String.utf8EncodeChar ∧
      b :: ys = back.flatMap String.utf8EncodeChar := by
  induction cs generalizing xs with
  | nil => simp at h
  | cons c cs ih =>
      rw [List.flatMap_cons] at h
      rcases List.append_eq_append_iff.1 h with ⟨rest, rfl, hrest⟩ | ⟨rest, hc, hrest⟩
      · obtain ⟨front, back, rfl, hback⟩ := ih hrest
        exact ⟨c :: front, back, List.flatMap_cons.symm, hback⟩
      · cases rest with
        | nil =>
            rw [List.append_nil] at hc
            exact ⟨[c], cs, by rw [← hc, List.flatMap_singleton], hrest⟩
        | cons b' rest =>
            obtain ⟨rfl, rfl⟩ := List.cons.inj hrest
            have hone : xs = [] := by
              have hmem : b ∈ String.utf8EncodeChar c := hc ▸ by simp
              have hval : c.val.toNat = b.toNat := ((mem_utf8EncodeChar hmem).resolve_right
                (Nat.not_le.2 hb)).symm
              rw [String.utf8EncodeChar, hval, if_pos (Nat.le_of_lt_succ hb)] at hc
              have hlength := congrArg List.length hc
              rw [List.length_append, List.length_singleton, List.length_cons] at hlength
              exact List.eq_nil_of_length_eq_zero (by omega)
            subst hone
            exact ⟨[], c :: cs, rfl, h.symm⟩

/-- Well-formed bytes come apart in front of a byte of ASCII. -/
theorem WellFormed.of_append {xs ys : List UInt8} {b : UInt8} (hb : b.toNat < 0x80)
    (h : WellFormed (xs ++ b :: ys)) : WellFormed xs ∧ WellFormed (b :: ys) := by
  obtain ⟨s, hs⟩ := h.exists_eq_bytes
  rw [bytes_eq] at hs
  obtain ⟨front, back, hxs, hys⟩ := exists_split hb hs.symm
  rw [hxs, hys, ← bytes_ofList, ← bytes_ofList]
  exact ⟨wellFormed_bytes _, wellFormed_bytes _⟩

end LuaEmbed.Text
