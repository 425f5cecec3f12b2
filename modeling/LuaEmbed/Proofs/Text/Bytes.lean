import LuaEmbed.Proofs.Host.Arguments
import LuaEmbed.Proofs.Text.Positions

/-!
# Texts and their bytes

`char` and `byte` are inverse to each other as far as texts go: every text is made again of its
bytes, and of the lists of bytes just the well-formed ones are those of a text.
-/

namespace LuaEmbed.Library.Strings

open Text

variable {s : String} {f : Float} {fs : List Float} {n : ℕ} {reversed : List UInt8} {site : CallSite}
  {session : Session}

/-! ## Numbers as bytes -/

/-- The number is a byte without its fraction, as integers are read: NaN counts as zero. -/
def IsByte (f : Float) : Prop := 0 ≤ Number.saturated f ∧ Number.saturated f ≤ 255

/-- The byte that a number is without its fraction. -/
def toByte (f : Float) : UInt8 := .ofNat (Number.saturated f).toNat

/-- A byte as a number. -/
def ofByte (b : UInt8) : Float := Number.ofNat b.toNat

theorem saturated_ofByte (b : UInt8) : Number.saturated (ofByte b) = b.toNat := by
  have hlt := b.toNat_lt
  rw [← Number.toInt64_eq]
  exact Number.toInt64_ofInt (z := b.toNat) (by rw [Int.natAbs_natCast]; omega)

theorem isByte_ofByte (b : UInt8) : IsByte (ofByte b) := by
  have hlt := b.toNat_lt
  rw [IsByte, saturated_ofByte]
  omega

theorem toByte_ofByte (b : UInt8) : toByte (ofByte b) = b := by
  rw [toByte, saturated_ofByte, Int.toNat_natCast, UInt8.ofNat_toNat]

theorem map_toByte_ofByte (bs : List UInt8) : (bs.map ofByte).map toByte = bs := by
  have hid : toByte ∘ ofByte = id := funext toByte_ofByte
  rw [List.map_map, hid, List.map_id]

/-- What is read of the numbers after the first `n` ones. -/
theorem extractBytes_eq (h : ∀ f ∈ fs, IsByte f) (n : ℕ) (reversed : List UInt8)
    (rest : List Value) :
    extractBytes n reversed (fs.map .number ++ rest) =
      extractBytes (n + fs.length) ((fs.map toByte).reverse ++ reversed) rest := by
  induction fs generalizing n reversed with
  | nil => rfl
  | cons f fs ih =>
      obtain ⟨hlow, hhigh⟩ := h f (List.mem_cons_self ..)
      have hextract : Arguments.extract .integer n (.number f) = pure (Number.saturated f) :=
        congrArg pure (Number.toInt64_eq f)
      have hrange : (Number.saturated f < 0 || 255 < Number.saturated f) = false := by
        simp only [Bool.or_eq_false_iff, decide_eq_false_iff_not]
        omega
      rw [List.map_cons, List.cons_append, extractBytes, hextract, pure_bind, hrange]
      have hrest := ih (fun f hf ↦ h f (List.mem_cons_of_mem _ hf)) (n + 1) (toByte f :: reversed)
      rw [List.length_cons, List.map_cons, List.reverse_cons, List.append_assoc,
        Nat.add_right_comm, ← Nat.add_assoc] at *
      exact hrest

/-- A number that is no byte is complained about. -/
theorem extractBytes_of_not_isByte (hf : ¬IsByte f) (n : ℕ) (reversed : List UInt8)
    (rest : List Value) (session : Session) :
    extractBytes n reversed (.number f :: rest) session =
      Report.argument .runtime n .invalidValue session := by
  have hextract : Arguments.extract .integer n (.number f) = pure (Number.saturated f) :=
    congrArg pure (Number.toInt64_eq f)
  have hrange : (Number.saturated f < 0 || 255 < Number.saturated f) = true := by
    rw [IsByte] at hf
    simp only [Bool.or_eq_true, decide_eq_true_eq]
    omega
  rw [extractBytes, hextract, pure_bind, hrange]
  rfl

/-! ## Functions -/

/-- The arguments that ask for all bytes of a text. -/
def allBytes (s : String) : Arguments :=
  [.string s, .number (Number.ofInt 1), .number (Number.ofInt (-1))]

theorem byte_allBytes (s : String) :
    byte (allBytes s) = pure ((bytes s).map fun b ↦ .number (ofByte b)) := by
  have hi : (allBytes s).opt .integer 2 1 = pure 1 :=
    congrArg pure (Number.toInt64_ofInt (z := 1) (by decide))
  have hj : (allBytes s).opt .integer 3 1 = pure (-1) :=
    congrArg pure (Number.toInt64_ofInt (z := -1) (by decide))
  have hall : bytesAt s 1 (-1) = bytes s := by
    have hlower : (lower s.utf8ByteSize 1 - 1).toNat = 0 := rfl
    have hupper : (upper s.utf8ByteSize (-1)).toNat = (bytes s).length := by
      rw [length_bytes, upper, position]
      simp
    rw [bytesAt_eq, hlower, hupper, List.take_length, List.drop_zero]
  rw [byte_eq rfl hi hj, hall]
  rfl

theorem char_eq (h : ∀ f ∈ fs, IsByte f) :
    char (fs.map .number) = pure [.string (decode (fs.map toByte))] := by
  have hread := extractBytes_eq h 1 [] []
  rw [List.append_nil, extractBytes, List.append_nil, List.reverse_reverse] at hread
  rw [char, hread]
  rfl

theorem char_of_not_isByte (gs : List Float) (h : ∀ f ∈ fs, IsByte f) (hf : ¬IsByte f)
    (session : Session) :
    char ((fs ++ f :: gs).map .number) session =
      Report.argument .runtime (fs.length + 1) .invalidValue session := by
  have hread : extractBytes 1 [] ((fs ++ f :: gs).map .number) session =
      Report.argument .runtime (fs.length + 1) .invalidValue session := by
    rw [List.map_append, extractBytes_eq h, List.map_cons, Nat.add_comm 1]
    exact extractBytes_of_not_isByte hf _ _ _ session
  exact Run.bind_congr_start hread

/-- `char` and `byte` are inverse to each other.  Every text is made again of its bytes.  Numbers that
are bytes without their fractions are given back, as these bytes, exactly if they are well-formed;
and the first number that is no byte is complained about, by its position. -/
theorem char_byte_inverse (call : Caller) (session : Session) :
    (∀ s : String,
      (run call .byte (allBytes s) >>= run call .char) session = .ok [.string s] session) ∧
    (∀ fs : List Float, (∀ f ∈ fs, IsByte f) →
      ∃ t bs, run call .char (fs.map .number) session = .ok [.string t] session ∧
        run call .byte (allBytes t) session =
          .ok (bs.map fun b ↦ .number (ofByte b)) session ∧
        (bs = fs.map toByte ↔ WellFormed (fs.map toByte))) ∧
    (∀ (fs gs : List Float) (f : Float), (∀ f ∈ fs, IsByte f) → ¬IsByte f →
      run call .char ((fs ++ f :: gs).map .number) session =
        Report.argument .runtime (fs.length + 1) .invalidValue session ∧
      ∀ site : CallSite, site.Calls session →
        run call .char ((fs ++ f :: gs).map .number) session =
          .error (.fault (.raised (.string (site.report (fs.length + 1) "invalid value"))))
            session) := by
  refine ⟨fun s ↦ ?_, fun fs h ↦ ?_, fun fs gs f h hf ↦ ?_⟩
  · have hbytes : (bytes s).map (fun b ↦ Value.number (ofByte b)) =
        ((bytes s).map ofByte).map .number := (List.map_map ..).symm
    have hall : ∀ f ∈ (bytes s).map ofByte, IsByte f := by
      intro f hf
      obtain ⟨b, -, rfl⟩ := List.mem_map.1 hf
      exact isByte_ofByte b
    change (byte (allBytes s) >>= char) session = _
    rw [byte_allBytes, pure_bind, hbytes, char_eq hall, map_toByte_ofByte, decode_bytes]
    rfl
  · exact ⟨decode (fs.map toByte), bytes (decode (fs.map toByte)),
      congrFun (char_eq h) session, congrFun (byte_allBytes _) session, bytes_decode_eq_iff⟩
  · have hreport := char_of_not_isByte gs h hf session
    exact ⟨hreport, fun site hsite ↦ hreport.trans (hsite.argument_eq _ _ _)⟩

/-- Two bytes of one letter are given back, the overlong form of zero is not, and 256 is no byte. -/
theorem char_byte_inverse_letter :
    let session : Session :=
      ⟨{ Machine.initial 200 with frames := [⟨some "char", none⟩, ⟨none, some ⟨"chunk", 0, 3⟩⟩] },
        World.initial⟩
    let call : Caller := fun _ _ _ ↦ pure []
    let site : CallSite := ⟨"chunk", 3, "char"⟩
    let letter : List Float := [ofByte 0xC3, ofByte 0xA9]
    let overlong : List Float := [ofByte 0xC0, ofByte 0x80]
    (∀ f ∈ letter, IsByte f) ∧ (∀ f ∈ overlong, IsByte f) ∧ ¬IsByte (Number.ofInt 256) ∧
    site.Calls session ∧
    (∃ t, run call .char (letter.map .number) session = .ok [.string t] session ∧
      run call .byte (allBytes t) session = .ok (letter.map .number) session) ∧
    (∃ t bs, run call .char (overlong.map .number) session = .ok [.string t] session ∧
      run call .byte (allBytes t) session = .ok (bs.map fun b ↦ .number (ofByte b)) session ∧
      bs ≠ [0xC0, 0x80]) ∧
    run call .char ((letter ++ [Number.ofInt 256]).map .number) session =
      .error (.fault (.raised (.string "chunk:3: bad argument #3 to char (invalid value)")))
        session := by
  intro session call site letter overlong
  have hbytes (bs : List UInt8) : ∀ f ∈ bs.map ofByte, IsByte f := by
    intro f hf
    obtain ⟨b, -, rfl⟩ := List.mem_map.1 hf
    exact isByte_ofByte b
  have hletter : ∀ f ∈ letter, IsByte f := hbytes [0xC3, 0xA9]
  have hoverlong : ∀ f ∈ overlong, IsByte f := hbytes [0xC0, 0x80]
  have hout : ¬IsByte (Number.ofInt 256) := by
    have hread : Number.saturated (Number.ofInt 256) = 256 := by
      rw [← Number.toInt64_eq]
      exact Number.toInt64_ofInt (by decide)
    rw [IsByte, hread]
    decide
  have hsite : site.Calls session := ⟨_, _, 0, rfl, rfl⟩
  have hfirst : letter.map toByte = [0xC3, 0xA9] := map_toByte_ofByte [0xC3, 0xA9]
  have hsecond : overlong.map toByte = [0xC0, 0x80] := map_toByte_ofByte [0xC0, 0x80]
  obtain ⟨-, hinverse, hreport⟩ := char_byte_inverse call session
  refine ⟨hletter, hoverlong, hout, hsite, ?_, ?_, ?_⟩
  · obtain ⟨t, bs, hchar, hbyte, hiff⟩ := hinverse letter hletter
    rw [hfirst] at hiff
    have hbs : bs = [0xC3, 0xA9] := hiff.2 (by decide +kernel)
    subst hbs
    exact ⟨t, hchar, hbyte⟩
  · obtain ⟨t, bs, hchar, hbyte, hiff⟩ := hinverse overlong hoverlong
    rw [hsecond] at hiff
    exact ⟨t, bs, hchar, hbyte, mt hiff.1 (by decide +kernel)⟩
  · have hshown : site.report (letter.length + 1) "invalid value" =
        "chunk:3: bad argument #3 to char (invalid value)" := by decide +kernel
    rw [← hshown]
    exact (hreport letter [] _ hletter hout).2 site hsite

end LuaEmbed.Library.Strings
