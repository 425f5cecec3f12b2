import LuaEmbed.Library.Strings
import LuaEmbed.Proofs.Text.Decoding
import Mathlib.Algebra.Ring.Nat

/-!
# Reversed texts

The library reverses the bytes of a text and reads the result back as text.  Reading never loses
length: what is read of bytes has at least as many bytes, since a replacement is as long as the
longest beginning of a character that it stands for.  In the bytes of a text reversed the last
character that is not of ASCII starts with a byte that starts no character, so that the result is
longer; a text is given back by a second reversal only if it is of ASCII.
-/

namespace LuaEmbed.Text

/-- The number of bytes of characters. -/
def size (cs : List Char) : Nat := (cs.flatMap String.utf8EncodeChar).length

@[simp] theorem size_nil : size [] = 0 := rfl

@[simp] theorem size_cons (c : Char) (cs : List Char) : size (c :: cs) = c.utf8Size + size cs := by
  rw [size, List.flatMap_cons, List.length_append, String.length_utf8EncodeChar, size]

theorem size_append (cs ds : List Char) : size (cs ++ ds) = size cs + size ds := by
  rw [size, List.flatMap_append, List.length_append, size, size]

theorem size_reverse (cs : List Char) : size cs.reverse = size cs := by
  induction cs with
  | nil => rfl
  | cons c cs ih => rw [List.reverse_cons, size_append, ih, size_cons, size_cons, Nat.add_comm]; rfl

theorem size_toList (s : String) : size s.toList = s.utf8ByteSize := by
  rw [size, ← bytes_eq]
  rfl

@[simp] theorem utf8Size_replacement : replacement.utf8Size = 3 := by decide

/-- The size of a character by its number. -/
theorem utf8Size_ofNat {n : Nat} (h : n.isValidChar) : (Char.ofNat n).utf8Size =
    if n ≤ 0x7F then 1 else if n ≤ 0x7FF then 2 else if n ≤ 0xFFFF then 3 else 4 := by
  have hvalue : (Char.ofNat n).val.toNat = n := by
    rw [Char.ofNat, dif_pos h]
    rfl
  simp only [Char.utf8Size, UInt32.le_iff_toNat_le, hvalue]
  rfl

namespace Decoder

variable {k n bits more : Nat} {low high b : UInt8} {d : Decoder} {bs : List UInt8}

/-! ## Bytes that are held back -/

/-- The least code point of characters of `n` bytes. -/
def least : Nat → Nat
  | 2 => 0x80
  | 3 => 0x800
  | _ => 0x10000

theorem le_utf8Size_ofNat (h : n.isValidChar) (hk : 2 ≤ k) (hk' : k ≤ 4) (hleast : least k ≤ n) :
    k ≤ (Char.ofNat n).utf8Size := by
  have hk : k = 2 ∨ k = 3 ∨ k = 4 := by omega
  rw [utf8Size_ofNat h]
  rcases hk with rfl | rfl | rfl <;> simp only [least] at hleast <;> repeat' split
  all_goals omega

/-- The code points from `first` on and before `stop` are those of characters, of `n` bytes each or
more. -/
structure Points (n first stop : Nat) : Prop where
  least_le : least n ≤ first
  surrogates : stop ≤ 0xD800 ∨ 0xE000 ≤ first
  stop_le : stop ≤ 0x110000

/-- The decoder holds back `k` bytes, the beginning of a character.  Whichever bytes it takes next,
the character has as many bytes as it has taken. -/
inductive Holds : Nat → Decoder → Prop
  | ready : Holds 0 ready
  | inside {k bits more : Nat} {low high : UInt8} (hsome : 1 ≤ k) (hall : k + more ≤ 3)
      (hlow : 0x80 ≤ low.toNat) (hhigh : high.toNat ≤ 0xBF)
      (hpoints : Points (k + more + 1) ((bits * 64 + low.toNat % 64) * 64 ^ more)
        ((bits * 64 + high.toNat % 64 + 1) * 64 ^ more)) :
      Holds k (inside bits more low high)

/-- A byte that starts a character of `more + 2` bytes is held back. -/
theorem exists_holds_first (hmore : more ≤ 2) (hlow : 0x80 ≤ low.toNat) (hhigh : high.toNat ≤ 0xBF)
    (hleast : least (1 + more + 1) ≤ (bits * 64 + low.toNat % 64) * 64 ^ more)
    (hsurrogates : (bits * 64 + high.toNat % 64 + 1) * 64 ^ more ≤ 0xD800 ∨
      0xE000 ≤ (bits * 64 + low.toNat % 64) * 64 ^ more)
    (hstop : (bits * 64 + high.toNat % 64 + 1) * 64 ^ more ≤ 0x110000) :
    ∃ k, Holds k (inside bits more low high) ∧ 1 ≤ size [] + k :=
  ⟨1, .inside (Nat.le_refl 1) (by omega) hlow hhigh ⟨hleast, hsurrogates, hstop⟩, Nat.le_refl 1⟩

/-- The first byte of a character is held back, or makes up for itself. -/
theorem exists_holds_start (b : UInt8) :
    ∃ k, Holds k (start b).2 ∧ 1 ≤ size (start b).1 + k := by
  obtain ⟨n, hn, rfl⟩ : ∃ n, n < 0x100 ∧ b = .ofNat n := ⟨b.toNat, b.toNat_lt, by simp⟩
  have hreplaced : 1 ≤ size [replacement] + 0 := by decide
  have h80 : (0x80 : UInt8).toNat = 0x80 := rfl
  have h90 : (0x90 : UInt8).toNat = 0x90 := rfl
  have hA0 : (0xA0 : UInt8).toNat = 0xA0 := rfl
  have h8F : (0x8F : UInt8).toNat = 0x8F := rfl
  have h9F : (0x9F : UInt8).toNat = 0x9F := rfl
  have hBF : (0xBF : UInt8).toNat = 0xBF := rfl
  have htwo : least (1 + 0 + 1) = 0x80 := rfl
  have hthree : least (1 + 1 + 1) = 0x800 := rfl
  have hfour : least (1 + 2 + 1) = 0x10000 := rfl
  rw [start_eq hn]
  split
  · exact ⟨0, .ready, by simpa [Nat.succ_le_iff] using Char.utf8Size_pos _⟩
  split
  · exact ⟨0, .ready, hreplaced⟩
  split
  · exact exists_holds_first (by omega) (by omega) (by omega) (by omega) (by omega) (by omega)
  split
  · split <;> split <;>
      exact exists_holds_first (by omega) (by omega) (by omega) (by omega) (by omega) (by omega)
  split
  · split <;> split <;>
      exact exists_holds_first (by omega) (by omega) (by omega) (by omega) (by omega) (by omega)
  · exact ⟨0, .ready, hreplaced⟩

/-- What a byte ends is not shorter than the bytes held back before it and after it. -/
theorem Holds.exists_step (h : Holds k d) (b : UInt8) :
    ∃ k', Holds k' (d.step b).2 ∧ k + 1 ≤ size (d.step b).1 + k' := by
  cases h with
  | ready => exact exists_holds_start b
  | @inside _ bits more low high hsome hall hlow hhigh hpoints =>
      obtain ⟨hleast, hsurrogates, hstop⟩ := hpoints
      by_cases hb : low.toNat ≤ b.toNat ∧ b.toNat ≤ high.toNat
      · obtain ⟨n, hn, rfl⟩ : ∃ n, n < 0x100 ∧ b = .ofNat n := ⟨b.toNat, b.toNat_lt, by simp⟩
        rw [toNat_byte hn] at hb
        rw [step_inside hb.1 hb.2]
        have hmod : n % 64 = n - 0x80 := by omega
        cases more with
        | zero =>
            have hvalid : (bits * 64 + n % 64).isValidChar := by
              rw [Nat.isValidChar]
              omega
            refine ⟨0, .ready, ?_⟩
            rw [size_cons, size_nil]
            exact le_utf8Size_ofNat hvalid (by omega) (by omega) (Nat.le_trans hleast (by omega))
        | succ more =>
            refine ⟨k + 1, .inside (by omega) (by omega) (Nat.le_refl _) (Nat.le_refl _) ?_, by simp⟩
            have h80 : (0x80 : UInt8).toNat % 64 = 0 := rfl
            have hBF : (0xBF : UInt8).toNat % 64 = 63 := rfl
            have hlength : k + 1 + more + 1 = k + (more + 1) + 1 := by omega
            have hpow (m : Nat) : m * 64 ^ (more + 1) = m * 64 * 64 ^ more := by
              rw [Nat.pow_succ', Nat.mul_assoc]
            rw [hpow] at hleast hsurrogates hstop
            rw [hpow] at hsurrogates
            have hfirst : (bits * 64 + low.toNat % 64) * 64 * 64 ^ more ≤
                ((bits * 64 + n % 64) * 64 + (0x80 : UInt8).toNat % 64) * 64 ^ more :=
              Nat.mul_le_mul_right _ (by omega)
            have hlast : ((bits * 64 + n % 64) * 64 + (0xBF : UInt8).toNat % 64 + 1) * 64 ^ more ≤
                (bits * 64 + high.toNat % 64 + 1) * 64 * 64 ^ more :=
              Nat.mul_le_mul_right _ (by omega)
            exact ⟨hlength ▸ Nat.le_trans hleast hfirst,
              hsurrogates.imp (Nat.le_trans hlast) (Nat.le_trans · hfirst),
              Nat.le_trans hlast hstop⟩
      · have hout : (low ≤ b && b ≤ high) = false := by
          simpa [UInt8.le_iff_toNat_le] using hb
        obtain ⟨k', hk', hsize⟩ := exists_holds_start b
        refine ⟨k', ?_⟩
        rw [step.eq_def]
        simp only [hout, Bool.false_eq_true, if_false]
        refine ⟨hk', ?_⟩
        rw [size_cons, utf8Size_replacement]
        omega

/-- What is read of bytes is not shorter than they are. -/
theorem Holds.le_size_run (h : Holds k d) (bs : List UInt8) : k + bs.length ≤ size (d.run bs) := by
  induction bs generalizing k d with
  | nil =>
      rw [run_nil]
      cases h with
      | ready => exact Nat.le_refl 0
      | inside hsome hall => rw [finish, size_cons, utf8Size_replacement, List.length_nil]; omega
  | cons b bs ih =>
      obtain ⟨k', hk', hstep⟩ := h.exists_step b
      have hrest := ih hk'
      rw [run_cons, size_append, List.length_cons]
      omega

/-- A byte that goes on with a character starts none. -/
theorem run_continuation (hlow : 0x80 ≤ b.toNat) (hhigh : b.toNat < 0xC0) :
    ready.run (b :: bs) = replacement :: ready.run bs := by
  have hb : b = .ofNat b.toNat := by simp
  rw [run_cons, step, hb, start_eq b.toNat_lt, if_neg (by omega), if_pos (by omega)]
  rfl

end Decoder

/-! ## Bytes of a text in reverse -/

variable {c : Char} {cs : List Char} {s : String}

/-- The bytes of a character in reverse. -/
def reversedBytes (c : Char) : List UInt8 := (String.utf8EncodeChar c).reverse

theorem reverse_bytes (s : String) : (bytes s).reverse = s.toList.reverse.flatMap reversedBytes := by
  rw [bytes_eq, List.reverse_flatMap]
  rfl

theorem reversedBytes_of_lt (h : c.toNat < 0x80) : reversedBytes c = [.ofNat c.toNat] := by
  have hval : c.val.toNat = c.toNat := rfl
  rw [reversedBytes, String.utf8EncodeChar, hval, if_pos (by omega)]
  rfl

/-- Outside ASCII the last byte of a character goes on with it. -/
theorem exists_reversedBytes_eq_cons (h : 0x80 ≤ c.toNat) :
    ∃ b bs, reversedBytes c = b :: bs ∧ 0x80 ≤ b.toNat ∧ b.toNat < 0xC0 := by
  have hval : c.val.toNat = c.toNat := rfl
  have hlast : (UInt8.ofNat (c.toNat % 64 + 128)).toNat = c.toNat % 64 + 128 :=
    Decoder.toNat_byte (by omega)
  rw [reversedBytes, String.utf8EncodeChar, hval, if_neg (by omega)]
  refine ⟨.ofNat (c.toNat % 64 + 128), ?_⟩
  rw [hlast]
  split
  · exact ⟨_, rfl, by omega, by omega⟩
  split
  · exact ⟨_, rfl, by omega, by omega⟩
  · exact ⟨_, rfl, by omega, by omega⟩

theorem run_flatMap_reversedBytes (h : ∀ c ∈ cs, c.toNat < 0x80) :
    Decoder.ready.run (cs.flatMap reversedBytes) = cs := by
  induction cs with
  | nil => rfl
  | cons c cs ih =>
      have hc : c.toNat < 0x80 := h c (List.mem_cons_self ..)
      rw [List.flatMap_cons, reversedBytes_of_lt hc, List.singleton_append,
        Decoder.run_one (by omega), ih fun d hd ↦ h d (List.mem_cons_of_mem _ hd), Char.ofNat_toNat]

/-- The first character that is not of ASCII starts with a byte that is replaced. -/
theorem length_lt_size_run (h : ∃ c ∈ cs, 0x80 ≤ c.toNat) :
    (cs.flatMap reversedBytes).length < size (Decoder.ready.run (cs.flatMap reversedBytes)) := by
  induction cs with
  | nil => obtain ⟨c, hc, -⟩ := h; exact nomatch hc
  | cons c cs ih =>
      rw [List.flatMap_cons]
      rcases Nat.lt_or_ge c.toNat 0x80 with hc | hc
      · have hrest : ∃ d ∈ cs, 0x80 ≤ d.toNat := by
          obtain ⟨d, hd, hout⟩ := h
          rcases List.mem_cons.1 hd with rfl | hd
          · omega
          · exact ⟨d, hd, hout⟩
        have hlt := ih hrest
        have hsize := Char.utf8Size_pos c
        rw [reversedBytes_of_lt hc, List.singleton_append, Decoder.run_one (by omega), size_cons,
          Char.ofNat_toNat, List.length_cons]
        omega
      · obtain ⟨b, bs, hbytes, hlow, hhigh⟩ := exists_reversedBytes_eq_cons hc
        have hrest := Decoder.Holds.ready.le_size_run (bs ++ cs.flatMap reversedBytes)
        rw [hbytes, List.cons_append, Decoder.run_continuation hlow hhigh, size_cons,
          utf8Size_replacement, List.length_cons]
        omega

/-! ## Reversal -/

/-- The text that the bytes of a text denote in reverse. -/
def reversed (s : String) : String := decode (bytes s).reverse

/-- All characters of a text are of ASCII. -/
def IsAscii (s : String) : Prop := ∀ c ∈ s.toList, c.toNat < 0x80

instance (s : String) : Decidable (IsAscii s) :=
  inferInstanceAs (Decidable (∀ c ∈ s.toList, c.toNat < 0x80))

theorem utf8ByteSize_reversed (s : String) :
    (reversed s).utf8ByteSize = size (Decoder.ready.run (bytes s).reverse) := by
  rw [← size_toList, reversed, toList_decode]

theorem length_reverse_bytes (s : String) : (bytes s).reverse.length = s.utf8ByteSize :=
  List.length_reverse

theorem utf8ByteSize_le_reversed (s : String) : s.utf8ByteSize ≤ (reversed s).utf8ByteSize := by
  have hsize := Decoder.Holds.ready.le_size_run (bytes s).reverse
  rw [utf8ByteSize_reversed]
  rwa [Nat.zero_add, length_reverse_bytes] at hsize

theorem IsAscii.toList_reversed (h : IsAscii s) : (reversed s).toList = s.toList.reverse := by
  rw [reversed, toList_decode, reverse_bytes]
  exact run_flatMap_reversedBytes fun c hc ↦ h c (List.mem_reverse.1 hc)

theorem lt_utf8ByteSize_reversed (h : ¬IsAscii s) :
    s.utf8ByteSize < (reversed s).utf8ByteSize := by
  have hout : ∃ c ∈ s.toList.reverse, 0x80 ≤ c.toNat := by
    simpa [IsAscii] using h
  have hlt := length_lt_size_run hout
  rwa [← reverse_bytes, length_reverse_bytes, ← utf8ByteSize_reversed] at hlt

theorem IsAscii.reversed (h : IsAscii s) : IsAscii (reversed s) := by
  intro c hc
  rw [h.toList_reversed] at hc
  exact h c (List.mem_reverse.1 hc)

/-- A reversal keeps the length of the texts of ASCII and of no others. -/
theorem utf8ByteSize_reversed_eq_iff : (reversed s).utf8ByteSize = s.utf8ByteSize ↔ IsAscii s := by
  constructor
  · intro hsize
    exact Decidable.of_not_not fun hout ↦
      Nat.ne_of_gt (lt_utf8ByteSize_reversed hout) hsize
  · intro hascii
    rw [← size_toList, hascii.toList_reversed, size_reverse, size_toList]

/-- A second reversal gives back the texts of ASCII and no others. -/
theorem reversed_reversed_eq_iff : reversed (reversed s) = s ↔ IsAscii s := by
  constructor
  · intro heq
    refine Decidable.of_not_not fun hout ↦ ?_
    have hfirst := lt_utf8ByteSize_reversed hout
    have hsecond := utf8ByteSize_le_reversed (reversed s)
    rw [heq] at hsecond
    omega
  · intro hascii
    rw [← String.toList_inj, hascii.reversed.toList_reversed, hascii.toList_reversed,
      List.reverse_reverse]

end LuaEmbed.Text

namespace LuaEmbed.Library.Strings

/-- Reversal gives a text of the same length, and a second one gives the text back, exactly for the
texts of ASCII; their characters are then in reverse.  Every other text gets longer. -/
theorem reverse_lawful_iff (call : Caller) (s : String) (session : Session) :
    ∃ r r', run call .reverse [.string s] session = .ok [.string r] session ∧
      run call .reverse [.string r] session = .ok [.string r'] session ∧
      (r.utf8ByteSize = s.utf8ByteSize ↔ Text.IsAscii s) ∧ (r' = s ↔ Text.IsAscii s) ∧
      (Text.IsAscii s → r.toList = s.toList.reverse) ∧
      (¬Text.IsAscii s → s.utf8ByteSize < r.utf8ByteSize) :=
  ⟨Text.reversed s, Text.reversed (Text.reversed s), rfl, rfl, Text.utf8ByteSize_reversed_eq_iff,
    Text.reversed_reversed_eq_iff, Text.IsAscii.toList_reversed, Text.lt_utf8ByteSize_reversed⟩

/-- A letter of two bytes becomes two replacements of three bytes each, and these become four
characters. -/
theorem reverse_accented :
    let s : Session := ⟨Machine.initial 200, World.initial⟩
    let call : Caller := fun _ _ _ ↦ pure []
    run call .reverse [.string "é"] s = .ok [.string "\uFFFD\uFFFD"] s ∧
      run call .reverse [.string "\uFFFD\uFFFD"] s =
        .ok [.string "\uFFFD\uFFFD\uFF7F\uFFFD"] s ∧
      "é".utf8ByteSize = 2 ∧ "\uFFFD\uFFFD".utf8ByteSize = 6 := by
  intro s call
  have honce : Text.reversed "é" = "\uFFFD\uFFFD" := by decide +kernel
  have htwice : Text.reversed "\uFFFD\uFFFD" = "\uFFFD\uFFFD\uFF7F\uFFFD" := by
    decide +kernel
  rw [← htwice, ← honce]
  exact ⟨rfl, rfl, by decide, by decide +kernel⟩

end LuaEmbed.Library.Strings
