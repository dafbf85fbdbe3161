import PolyLambda.Proofs.Surface.Grammar

/-!
# Phrases wherever they stand

No rule of the grammar looks at the places of the tokens. So what matters to whether tokens are a
phrase, and to what it means apart from places, is said of bare tokens (`Anywhere`).
-/

namespace PolyLambda.Surface.Grammar

variable {α β : Type} {P : Phrases α} {F G : α → Prop} {tokens others : List Token}

/-- Wherever the tokens stand, they are a phrase of `P`, and `F` is true of its meaning. -/
def Anywhere (P : Phrases α) (tokens : List Token) (F : α → Prop) : Prop :=
  ∀ ts : Tokens, ts.map Located.val = tokens → ∃ a, P ts a ∧ F a

theorem Anywhere.imp {Q : Phrases β} {G : β → Prop} (h : Anywhere P tokens F)
    (himp : ∀ ts a, P ts a → F a → ∃ b, Q ts b ∧ G b) : Anywhere Q tokens G := by
  intro ts hts
  obtain ⟨a, hP, hF⟩ := h ts hts
  exact himp ts a hP hF

theorem anywhere_token {t : Token} (h : ∀ s, ∃ a, P [⟨s, t⟩] a ∧ F a) : Anywhere P [t] F := by
  intro ts hts
  obtain ⟨⟨s, token⟩, us, rfl, rfl, hus⟩ := List.map_eq_cons_iff.1 hts
  cases List.map_eq_nil_iff.1 hus
  exact h s

/-- One more token in front. -/
theorem Anywhere.cons {Q : Phrases β} {G : β → Prop} {t : Token} (h : Anywhere P tokens F)
    (hQ : ∀ s ts a, P ts a → F a → ∃ b, Q (⟨s, t⟩ :: ts) b ∧ G b) : Anywhere Q (t :: tokens) G := by
  intro ts hts
  obtain ⟨⟨s, token⟩, us, rfl, rfl, hus⟩ := List.map_eq_cons_iff.1 hts
  obtain ⟨a, hP, hF⟩ := h us hus
  exact hQ s us a hP hF

theorem Anywhere.parens {Q : Phrases β} {G : β → Prop}
    (h : ∀ o c ts, ts.map Located.val = tokens → ∃ b, Q (parens o c ts) b ∧ G b) :
    Anywhere Q (.openParen :: (tokens ++ [.closeParen])) G := by
  intro ts hts
  obtain ⟨⟨o, _⟩, us, rfl, rfl, hus⟩ := List.map_eq_cons_iff.1 hts
  obtain ⟨vs, last, rfl, hvs, hlast⟩ := List.map_eq_append_iff.1 hus
  obtain ⟨⟨c, _⟩, rest, rfl, rfl, hrest⟩ := List.map_eq_cons_iff.1 hlast
  cases List.map_eq_nil_iff.1 hrest
  exact h o c vs hvs

theorem anywhere_each_nil : Anywhere (Each P) [] (· = []) := by
  intro ts hts
  cases List.map_eq_nil_iff.1 hts
  exact ⟨[], .nil, rfl⟩

theorem Anywhere.each {G : List α → Prop} (h : Anywhere P tokens F)
    (h' : Anywhere (Each P) others G) :
    Anywhere (Each P) (tokens ++ others) fun as => ∃ a bs, as = a :: bs ∧ F a ∧ G bs := by
  intro ts hts
  obtain ⟨us, vs, rfl, hus, hvs⟩ := List.map_eq_append_iff.1 hts
  obtain ⟨a, hP, hF⟩ := h us hus
  obtain ⟨bs, hEach, hG⟩ := h' vs hvs
  exact ⟨a :: bs, .cons hP hEach, a, bs, rfl, hF, hG⟩

/-- Each of several phrases is somewhere in them. -/
theorem Each.exists_infix {ts : Tokens} {as : List α} (h : Each P ts as) :
    ∀ a ∈ as, ∃ us, us <:+: ts ∧ P us a := by
  induction h with
  | nil => exact fun _ h => absurd h List.not_mem_nil
  | cons hP _ ih =>
    refine List.forall_mem_cons.2 ⟨⟨_, (List.prefix_append _ _).isInfix, hP⟩, fun a ha => ?_⟩
    obtain ⟨us, hus, hPus⟩ := ih a ha
    exact ⟨us, hus.trans (List.suffix_append _ _).isInfix, hPus⟩

end PolyLambda.Surface.Grammar
