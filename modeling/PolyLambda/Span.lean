/-!
# Source spans

A span is a range of byte offsets into the UTF-8 form of a source text, from the first byte of a
phrase to the byte after its last. Offsets have 32 bits: a text of 4 GiB or more is read like any
other, but what lies behind its first 4 GiB has offsets that have wrapped around.
-/

namespace PolyLambda

instance coeOutUInt32 : CoeOut UInt32 Nat := ⟨UInt32.toNat⟩

/-- The bytes of a text from `start` up to, but not including, `stop`. -/
structure Extent where
  start : Nat
  stop : Nat
  deriving DecidableEq, Inhabited

/-- An extent with offsets of 32 bits. -/
structure Span where
  start : UInt32
  stop : UInt32
  deriving DecidableEq, Inhabited

/-- The extent as it is reported. -/
def Extent.span (e : Extent) : Span := ⟨.ofNat e.start, .ofNat e.stop⟩

/-- Behind 4 GiB offsets start anew. -/
example : Extent.span ⟨4294967295, 4294967297⟩ = ⟨4294967295, 1⟩ := rfl

namespace Span

/-- The bytes that a span names. -/
def extent (s : Span) : Extent := ⟨s.start, s.stop⟩

/-- The empty span at the beginning of a source. -/
def origin : Span := ⟨0, 0⟩

/-- The empty span right after `s`. -/
def after (s : Span) : Span := ⟨s.stop, s.stop⟩

/-- The least span that contains both `s` and `t`. -/
def cover (s t : Span) : Span := ⟨min s.start t.start, max s.stop t.stop⟩

/-- Whether `s` lies inside `t`. -/
def Within (s t : Span) : Prop := t.start ≤ s.start ∧ s.stop ≤ t.stop

instance (s t : Span) : Decidable (s.Within t) :=
  inferInstanceAs (Decidable (_ ∧ _))

theorem Within.refl (s : Span) : s.Within s := ⟨UInt32.le_refl _, UInt32.le_refl _⟩

theorem Within.trans {r s t : Span} (h : r.Within s) (h' : s.Within t) : r.Within t :=
  ⟨UInt32.le_trans h'.1 h.1, UInt32.le_trans h.2 h'.2⟩

end Span

/-- A value together with the place in the source it was read from. -/
structure Located (α : Type) where
  span : Span
  val : α
  deriving DecidableEq, Inhabited

/-- A value together with the bytes of the source it was read from, however far behind they are. -/
structure Placed (α : Type) where
  extent : Extent
  val : α
  deriving DecidableEq, Inhabited

def Placed.located {α : Type} (p : Placed α) : Located α := ⟨p.extent.span, p.val⟩

end PolyLambda
