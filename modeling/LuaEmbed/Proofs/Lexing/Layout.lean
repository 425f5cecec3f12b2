import LuaEmbed.Proofs.Lexing.Sources
import Mathlib.Data.List.Chain

/-!
# How glyphs are written

The glyphs of a source are written with its bytes.  Conversely, what glyphs are written with is laid
out as these glyphs, if no two neighbours among them join in one line break; the glyphs of a source
never do.
-/

namespace LuaEmbed

namespace Glyph

variable {g h : Glyph} {gs hs : List Glyph} {b : UInt8}

/-- A glyph as layouts make it: one byte, or the two different bytes of a line break. -/
inductive Written : Glyph → Prop
  | single (b : UInt8) (p : Position) : Written (single b p)
  | pair {a b : UInt8} (ha : isBreakByte a = true) (hb : isBreakByte b = true) (hne : a ≠ b)
      (p : Position) : Written ⟨lineFeed, [a, b], p⟩

/-- The bytes of two glyphs do not join in one line break. -/
def Apart (g h : Glyph) : Prop :=
  ∀ a b, g.raw = [a] → h.raw.head? = some b → isBreakByte a = true → isBreakByte b = true → a = b

/-- Glyphs as layouts make them. -/
structure Laid (gs : List Glyph) : Prop where
  written : ∀ g ∈ gs, g.Written
  apart : gs.IsChain Apart

namespace Laid

theorem nil : Laid [] where
  written _ hmem := (List.not_mem_nil hmem).elim
  apart := .nil

theorem of_infix (hgs : Laid gs) (h : hs <:+: gs) : Laid hs where
  written g hg := hgs.written g (h.subset hg)
  apart := hgs.apart.infix h

theorem append (hgs : Laid gs) (hhs : Laid hs)
    (h : ∀ x ∈ gs.getLast?, ∀ y ∈ hs.head?, Apart x y) : Laid (gs ++ hs) where
  written g hg := (List.mem_append.1 hg).elim (hgs.written g) (hhs.written g)
  apart := hgs.apart.append hhs.apart h

theorem singleton (hg : g.Written) : Laid [g] where
  written _ hmem := List.mem_singleton.1 hmem ▸ hg
  apart := .singleton g

end Laid

/-- A byte is added as a glyph of its own, or it joins the break byte before it. -/
theorem push_cases (gs : List Glyph) (b : UInt8) :
    (push gs b = single b (place gs) :: gs ∧ ∀ g ∈ gs.head?, ∀ p, Apart g (single b p)) ∨
      ∃ g a earlier, gs = g :: earlier ∧ g.raw = [a] ∧ isBreakByte a = true ∧
        isBreakByte b = true ∧ a ≠ b ∧
          push gs b = ⟨lineFeed, [a, b], g.position⟩ :: earlier := by
  by_cases hapart : ∀ g ∈ gs.head?, Apart g (single b .first)
  · exact .inl ⟨push_of_not_joins fun g hg a hraw ↦ hapart g hg a b hraw rfl,
      fun g hg _ ↦ hapart g hg⟩
  · right
    simp only [Apart, single, List.head?_cons, Option.some.injEq, not_forall, exists_prop] at hapart
    obtain ⟨g, hg, a, _, hraw, rfl, ha, hb, hne⟩ := hapart
    obtain ⟨earlier, rfl⟩ := List.head?_eq_some_iff.1 hg
    refine ⟨g, a, earlier, rfl, hraw, ha, hb, hne, ?_⟩
    simp [push, hraw, ha, hb, hne]

/-- One more byte keeps glyphs as layouts make them, and it comes last in what they are written
with. -/
theorem laid_push (hgs : Laid gs.reverse) (b : UInt8) :
    Laid (push gs b).reverse ∧ Source.raw (push gs b).reverse = Source.raw gs.reverse ++ [b] := by
  rcases push_cases gs b with ⟨hpush, hapart⟩ | ⟨g, a, earlier, rfl, hraw, ha, hb, hne, hpush⟩
  · rw [hpush, List.reverse_cons, Source.raw, List.flatMap_append]
    refine ⟨hgs.append (.singleton (.single b _)) fun x hx y hy ↦ ?_, rfl⟩
    rw [List.getLast?_reverse] at hx
    obtain rfl := Option.some.inj hy
    exact hapart x hx _
  · rw [List.reverse_cons] at hgs
    rw [hpush, List.reverse_cons, List.reverse_cons]
    refine ⟨(hgs.of_infix (List.prefix_append _ _).isInfix).append (.singleton (.pair ha hb hne _))
      fun x hx y hy ↦ ?_, by simp [Source.raw, hraw]⟩
    obtain rfl := Option.some.inj hy
    have hlast := (List.isChain_append.1 hgs.apart).2.2 x hx g rfl
    intro c d hc hd
    exact hlast c d hc (by rw [hraw]; exact hd)

/-- A glyph that is no break is written with the byte that it counts as. -/
theorem Written.raw_of_not_break (hg : g.Written) (h : g.isBreak = false) : g.raw = [g.byte] := by
  cases hg with
  | single b p =>
      unfold Glyph.single at h ⊢
      split
      · next hb =>
        rw [if_pos hb] at h
        cases h
      · rfl
  | pair => cases h

/-- The bytes that a glyph is written with make that glyph again, after glyphs that it does not join
with. -/
theorem foldl_push_raw (hg : g.Written) (hapart : ∀ h ∈ gs.head?, Apart h g) :
    g.raw.foldl push gs = { g with position := place gs } :: gs := by
  cases hg with
  | single b p => exact push_of_not_joins fun h hh a hraw ↦ hapart h hh a b hraw rfl
  | @pair a b ha hb hne p =>
      have hfirst : push gs a = single a (place gs) :: gs :=
        push_of_not_joins fun h hh c hraw ↦ hapart h hh c a hraw rfl
      rw [List.foldl_cons, hfirst]
      simp [push, single, ha, hb, hne]

end Glyph

namespace Source

open Glyph (Laid Apart)

variable {gs hs : List Glyph}

theorem raw_cons (g : Glyph) (gs : List Glyph) : raw (g :: gs) = g.raw ++ raw gs :=
  List.flatMap_cons ..

theorem raw_append (gs hs : List Glyph) : raw (gs ++ hs) = raw gs ++ raw hs :=
  List.flatMap_append ..

/-- Glyphs are written with at least one byte each. -/
theorem length_le_raw (hgs : ∀ g ∈ gs, g.Written) : gs.length ≤ (raw gs).length := by
  induction gs with
  | nil => exact Nat.le_refl 0
  | cons g gs ih =>
      have hrest := ih fun g hg ↦ hgs g (List.mem_cons_of_mem _ hg)
      have hone : 1 ≤ g.raw.length := by
        cases hgs g (List.mem_cons_self ..) <;> exact Nat.succ_pos _
      rw [raw_cons, List.length_append, List.length_cons]
      omega

/-- Glyphs without breaks are written with the bytes that they count as. -/
theorem raw_of_not_break (hgs : ∀ g ∈ gs, g.Written) (h : ∀ g ∈ gs, g.isBreak = false) :
    raw gs = gs.map Glyph.byte := by
  have hone : gs.map Glyph.raw = gs.map fun g ↦ [g.byte] :=
    List.map_congr_left fun g hg ↦ (hgs g hg).raw_of_not_break (h g hg)
  rw [raw, List.flatMap_def, hone, ← List.flatMap_def, List.map_eq_flatMap]

/-- Bytes that are no breaks are found in glyphs where they are found in what these are written
with. -/
theorem exists_of_raw {ws bs : List UInt8} (hgs : ∀ g ∈ gs, g.Written)
    (hws : ∀ b ∈ ws, Glyph.isBreakByte b = false) (h : raw gs = ws ++ bs) :
    ∃ os rest, gs = os ++ rest ∧ os.map Glyph.byte = ws ∧ raw rest = bs := by
  induction ws generalizing gs with
  | nil => exact ⟨[], gs, rfl, rfl, h⟩
  | cons b ws ih =>
      have hb := hws b (List.mem_cons_self ..)
      cases gs with
      | nil => cases h
      | cons g gs =>
          have hg := hgs g (List.mem_cons_self ..)
          rw [raw_cons] at h
          cases hg with
          | single a p =>
              obtain ⟨rfl, htail⟩ := List.cons.inj h
              obtain ⟨os, rest, rfl, hos, hrest⟩ := ih
                (fun g hg ↦ hgs g (List.mem_cons_of_mem _ hg))
                (fun b hb ↦ hws b (List.mem_cons_of_mem _ hb)) htail
              refine ⟨_ :: os, rest, rfl, ?_, hrest⟩
              rw [List.map_cons, hos, Glyph.single, hb]
              rfl
          | pair ha =>
              obtain ⟨rfl, -⟩ := List.cons.inj h
              exact absurd (hb.symm.trans ha) Bool.false_ne_true

/-- Glyphs that count as bytes without breaks are written with them. -/
theorem raw_eq {ws : List UInt8} (hgs : ∀ g ∈ gs, g.Written)
    (hws : ∀ b ∈ ws, Glyph.isBreakByte b = false) (h : gs.map Glyph.byte = ws) : raw gs = ws := by
  rw [raw_of_not_break hgs fun g hg ↦ ?_, h]
  have hbyte := hws g.byte (h ▸ List.mem_map_of_mem hg)
  refine beq_eq_false_iff_ne.2 fun hfeed ↦ ?_
  rw [hfeed] at hbyte
  cases hbyte

theorem infix_raw {ws : List UInt8} (hgs : ∀ g ∈ gs, g.Written)
    (hws : ∀ b ∈ ws, Glyph.isBreakByte b = false) (h : ws <:+: gs.map Glyph.byte) :
    ws <:+: raw gs := by
  obtain ⟨before, after, hsplit⟩ := h
  obtain ⟨front, back, rfl, hfront, -⟩ := List.map_eq_append_iff.1 hsplit.symm
  obtain ⟨front, middle, rfl, -, hmiddle⟩ := List.map_eq_append_iff.1 hfront
  rw [raw_append, raw_append, raw_eq (fun g hg ↦ hgs g (by simp [hg])) hws hmiddle]
  exact List.infix_append _ _ _

theorem laid_foldl_push (bs : List UInt8) (hgs : Laid gs.reverse) :
    Laid (bs.foldl Glyph.push gs).reverse ∧
      raw (bs.foldl Glyph.push gs).reverse = raw gs.reverse ++ bs := by
  induction bs generalizing gs with
  | nil => exact ⟨hgs, (List.append_nil _).symm⟩
  | cons b bs ih =>
      obtain ⟨hpush, hraw⟩ := Glyph.laid_push hgs b
      obtain ⟨hlaid, hraws⟩ := ih hpush
      exact ⟨hlaid, by rw [List.foldl_cons, hraws, hraw, List.append_assoc, List.singleton_append]⟩

theorem laid_layOut (bs : List UInt8) : Laid (layOut bs).glyphs :=
  (laid_foldl_push bs (show Laid ([] : List Glyph).reverse from .nil)).1

/-- The glyphs of a source are written with its bytes. -/
theorem raw_layOut (bs : List UInt8) : raw (layOut bs).glyphs = bs :=
  (laid_foldl_push bs (show Laid ([] : List Glyph).reverse from .nil)).2

theorem foldl_push_raw (hhs : Laid hs) (h : ∀ x ∈ gs.head?, ∀ y ∈ hs.head?, Apart x y) :
    ((raw hs).foldl Glyph.push gs).map Glyph.byte =
      (hs.map Glyph.byte).reverse ++ gs.map Glyph.byte := by
  induction hs generalizing gs with
  | nil => rfl
  | cons g hs ih =>
      have hg := Glyph.foldl_push_raw (hhs.written g (List.mem_cons_self ..))
        fun x hx ↦ h x hx g rfl
      have hrest : Laid hs := hhs.of_infix (List.suffix_cons g hs).isInfix
      have hapart := (List.isChain_cons.1 hhs.apart).1
      have hnext : ∀ x ∈ ({ g with position := Glyph.place gs } :: gs).head?, ∀ y ∈ hs.head?,
          Apart x y := by
        intro x hx y hy
        obtain rfl := Option.some.inj hx
        exact hapart y hy
      rw [raw_cons, List.foldl_append, hg, ih hrest hnext]
      simp

/-- What glyphs are written with is laid out as these glyphs. -/
theorem layOut_raw (hgs : Laid gs) :
    (layOut (raw gs)).glyphs.map Glyph.byte = gs.map Glyph.byte := by
  have hbytes : ((raw gs).foldl Glyph.push []).map Glyph.byte = (gs.map Glyph.byte).reverse ++ [] :=
    foldl_push_raw hgs (by simp)
  rw [layOut, List.map_reverse, hbytes, List.append_nil, List.reverse_reverse]

end Source

end LuaEmbed
