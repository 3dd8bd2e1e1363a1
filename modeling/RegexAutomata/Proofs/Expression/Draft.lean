import RegexAutomata.Expression.Derivation
import RegexAutomata.Proofs.Expression.Spelling

/-! Drafts: derivations in which the last operand in front of a closing parenthesis may be missing,
and in which a group may stand right behind a star with no dot between them. These are the shapes
that the rules on neighbours and on parentheses let through. -/
namespace RegexAutomata.Expression

/-- A draft of a rank. The flag says whether it has its last operand. -/
inductive Draft : Rank → Bool → Type
  | operand (c : Char) : Draft .atom true
  | group {b : Bool} (e : Draft .sum b) : Draft .atom true
  | blank : Draft .factor false
  | plain (a : Draft .atom true) : Draft .factor true
  | star (f : Draft .factor true) : Draft .factor true
  | beside {b : Bool} (f : Draft .factor true) (e : Draft .sum b) : Draft .factor true
  | single {b : Bool} (f : Draft .factor b) : Draft .product b
  | concat {b : Bool} (t : Draft .product true) (f : Draft .factor b) : Draft .product b
  | alone {b : Bool} (t : Draft .product b) : Draft .sum b
  | union {b : Bool} (e : Draft .sum true) (t : Draft .product b) : Draft .sum b

namespace Draft

def text : {r : Rank} → {b : Bool} → Draft r b → List Char
  | _, _, .operand c => [c]
  | _, _, .group e => '(' :: (e.text ++ [')'])
  | _, _, .blank => []
  | _, _, .plain a => a.text
  | _, _, .star f => f.text ++ ['*']
  | _, _, .beside f e => f.text ++ '*' :: '(' :: (e.text ++ [')'])
  | _, _, .single f => f.text
  | _, _, .concat t f => t.text ++ '.' :: f.text
  | _, _, .alone t => t.text
  | _, _, .union e t => e.text ++ '+' :: t.text

/-- The postfix form. The star in front of a group waits until the group is closed. -/
def postOrder : {r : Rank} → {b : Bool} → Draft r b → List Char
  | _, _, .operand c => [c]
  | _, _, .group e => e.postOrder
  | _, _, .blank => []
  | _, _, .plain a => a.postOrder
  | _, _, .star f => f.postOrder ++ ['*']
  | _, _, .beside f e => f.postOrder ++ e.postOrder ++ ['*']
  | _, _, .single f => f.postOrder
  | _, _, .concat t f => t.postOrder ++ f.postOrder ++ ['.']
  | _, _, .alone t => t.postOrder
  | _, _, .union e t => e.postOrder ++ t.postOrder ++ ['+']

def Over (p : Char → Prop) : {r : Rank} → {b : Bool} → Draft r b → Prop
  | _, _, .operand c => p c
  | _, _, .group e => e.Over p
  | _, _, .blank => True
  | _, _, .plain a => a.Over p
  | _, _, .star f => f.Over p
  | _, _, .beside f e => f.Over p ∧ e.Over p
  | _, _, .single f => f.Over p
  | _, _, .concat t f => t.Over p ∧ f.Over p
  | _, _, .alone t => t.Over p
  | _, _, .union e t => e.Over p ∧ t.Over p

def endsInStar : {r : Rank} → {b : Bool} → Draft r b → Bool
  | _, _, .star _ => true
  | _, _, _ => false

def StarsApart : {r : Rank} → {b : Bool} → Draft r b → Prop
  | _, _, .operand _ => True
  | _, _, .group e => e.StarsApart
  | _, _, .blank => True
  | _, _, .plain a => a.StarsApart
  | _, _, .star f => f.endsInStar = false ∧ f.StarsApart
  | _, _, .beside f e => f.endsInStar = false ∧ f.StarsApart ∧ e.StarsApart
  | _, _, .single f => f.StarsApart
  | _, _, .concat t f => t.StarsApart ∧ f.StarsApart
  | _, _, .alone t => t.StarsApart
  | _, _, .union e t => e.StarsApart ∧ t.StarsApart

def gaps : {r : Rank} → {b : Bool} → Draft r b → Nat
  | _, _, .operand _ => 0
  | _, _, .group e => e.gaps
  | _, _, .blank => 1
  | _, _, .plain a => a.gaps
  | _, _, .star f => f.gaps
  | _, _, .beside f e => f.gaps + e.gaps
  | _, _, .single f => f.gaps
  | _, _, .concat t f => t.gaps + f.gaps
  | _, _, .alone t => t.gaps
  | _, _, .union e t => e.gaps + t.gaps

/-- The number of groups right behind a star. -/
def besides : {r : Rank} → {b : Bool} → Draft r b → Nat
  | _, _, .operand _ => 0
  | _, _, .group e => e.besides
  | _, _, .blank => 0
  | _, _, .plain a => a.besides
  | _, _, .star f => f.besides
  | _, _, .beside f e => f.besides + e.besides + 1
  | _, _, .single f => f.besides
  | _, _, .concat t f => t.besides + f.besides
  | _, _, .alone t => t.besides
  | _, _, .union e t => e.besides + t.besides

def take? (o : Operator) (k : Nat) : Option Nat :=
  if k < o.arity then none else some (k - o.arity + 1)

/-- The number of operands behind the draft if there are `k` of them in front of it, unless an
operator finds too few. -/
def height? : {r : Rank} → {b : Bool} → Draft r b → Nat → Option Nat
  | _, _, .operand _, k => some (k + 1)
  | _, _, .group e, k => e.height? k
  | _, _, .blank, k => some k
  | _, _, .plain a, k => a.height? k
  | _, _, .star f, k => (f.height? k).bind (take? .star)
  | _, _, .beside f e, k => ((f.height? k).bind e.height?).bind (take? .star)
  | _, _, .single f, k => f.height? k
  | _, _, .concat t f, k => ((t.height? k).bind f.height?).bind (take? .concat)
  | _, _, .alone t, k => t.height? k
  | _, _, .union e t, k => ((e.height? k).bind t.height?).bind (take? .union)

variable {r : Rank} {b : Bool} {k k' : Nat}

theorem take?_eq_some {o : Operator} :
    take? o k = some k' ↔ o.arity ≤ k ∧ k' + o.arity = k + 1 := by
  rw [take?]
  by_cases h : k < o.arity
  · simp only [if_pos h, false_iff, reduceCtorEq]
    omega
  · simp only [if_neg h, Option.some.injEq]
    omega

theorem bind_take?_eq_some {o : Operator} {x : Option Nat} {g : Nat → Option Nat} :
    (x.bind g).bind (take? o) = some k' ↔
      ∃ i j, x = some i ∧ g i = some j ∧ o.arity ≤ j ∧ k' + o.arity = j + 1 := by
  simp only [Option.bind_eq_some_iff, take?_eq_some]
  constructor
  · intro ⟨j, ⟨i, hi, hj⟩, ho⟩
    exact ⟨i, j, hi, hj, ho⟩
  · intro ⟨i, j, hi, hj, ho⟩
    exact ⟨j, ⟨i, hi, hj⟩, ho⟩

theorem over_imp {p q : Char → Prop} (hpq : ∀ c, p c → q c) : ∀ {r : Rank} {b : Bool}
    (d : Draft r b), d.Over p → d.Over q
  | _, _, .operand c, h => hpq c h
  | _, _, .group e, h => over_imp hpq e h
  | _, _, .blank, _ => trivial
  | _, _, .plain a, h => over_imp hpq a h
  | _, _, .star f, h => over_imp hpq f h
  | _, _, .beside f e, h => ⟨over_imp hpq f h.1, over_imp hpq e h.2⟩
  | _, _, .single f, h => over_imp hpq f h
  | _, _, .concat t f, h => ⟨over_imp hpq t h.1, over_imp hpq f h.2⟩
  | _, _, .alone t, h => over_imp hpq t h
  | _, _, .union e t, h => ⟨over_imp hpq e h.1, over_imp hpq t h.2⟩

/-- A missing operand is one operand too few, a group behind a star one too many. -/
theorem height?_count : ∀ {r : Rank} {b : Bool} (d : Draft r b) {k k' : Nat},
    d.height? k = some k' → k' + d.gaps = k + 1 + d.besides
  | _, _, .operand _, k, k', h => by
    obtain rfl : k + 1 = k' := Option.some.inj h
    rfl
  | _, _, .group e, k, k', h => e.height?_count h
  | _, _, .blank, k, k', h => by
    obtain rfl : k = k' := Option.some.inj h
    rfl
  | _, _, .plain a, k, k', h => a.height?_count h
  | _, _, .star f, k, k', h => by
    obtain ⟨i, hi, htake⟩ := Option.bind_eq_some_iff.1 h
    have hf := f.height?_count hi
    have hk := take?_eq_some.1 htake
    simp only [Operator.arity, gaps, besides] at *
    omega
  | _, _, .beside f e, k, k', h => by
    obtain ⟨i, j, hi, hj, hk⟩ := bind_take?_eq_some.1 h
    have hf := f.height?_count hi
    have he := e.height?_count hj
    simp only [Operator.arity, gaps, besides] at *
    omega
  | _, _, .single f, k, k', h => f.height?_count h
  | _, _, .concat t f, k, k', h => by
    obtain ⟨i, j, hi, hj, hk⟩ := bind_take?_eq_some.1 h
    have ht := t.height?_count hi
    have hf := f.height?_count hj
    simp only [Operator.arity, gaps, besides] at *
    omega
  | _, _, .alone t, k, k', h => t.height?_count h
  | _, _, .union e t, k, k', h => by
    obtain ⟨i, j, hi, hj, hk⟩ := bind_take?_eq_some.1 h
    have he := e.height?_count hi
    have ht := t.height?_count hj
    simp only [Operator.arity, gaps, besides] at *
    omega

/-- Where no operand is missing, every operator finds its operands. -/
theorem height?_of_gaps_eq_zero : ∀ {r : Rank} {b : Bool} (d : Draft r b) (k : Nat),
    d.gaps = 0 → d.height? k = some (k + 1 + d.besides)
  | _, _, .operand _, k, _ => rfl
  | _, _, .group e, k, h => e.height?_of_gaps_eq_zero k h
  | _, _, .blank, k, h => by cases h
  | _, _, .plain a, k, h => a.height?_of_gaps_eq_zero k h
  | _, _, .star f, k, h => by
    rw [height?, f.height?_of_gaps_eq_zero k h, Option.bind_some, take?_eq_some]
    exact ⟨by simp only [Operator.arity]; omega, rfl⟩
  | _, _, .beside f e, k, h => by
    obtain ⟨hf, he⟩ := Nat.add_eq_zero_iff.1 h
    refine bind_take?_eq_some.2
      ⟨_, _, f.height?_of_gaps_eq_zero k hf, e.height?_of_gaps_eq_zero _ he, ?_⟩
    simp only [Operator.arity, besides]
    omega
  | _, _, .single f, k, h => f.height?_of_gaps_eq_zero k h
  | _, _, .concat t f, k, h => by
    obtain ⟨ht, hf⟩ := Nat.add_eq_zero_iff.1 h
    refine bind_take?_eq_some.2
      ⟨_, _, t.height?_of_gaps_eq_zero k ht, f.height?_of_gaps_eq_zero _ hf, ?_⟩
    simp only [Operator.arity, besides]
    omega
  | _, _, .alone t, k, h => t.height?_of_gaps_eq_zero k h
  | _, _, .union e t, k, h => by
    obtain ⟨he, ht⟩ := Nat.add_eq_zero_iff.1 h
    refine bind_take?_eq_some.2
      ⟨_, _, e.height?_of_gaps_eq_zero k he, t.height?_of_gaps_eq_zero _ ht, ?_⟩
    simp only [Operator.arity, besides]
    omega

section Chain
variable {R : Char → Char → Prop} {u v : List Char}

theorem isChain_behind (hr : ∀ c ∈ [')', '+', '.', '*'], ∀ p, R p c) {c : Char}
    (hc : c ∈ [')', '+', '.', '*']) (hu : u.IsChain R) (hv : (c :: v).IsChain R) :
    (u ++ c :: v).IsChain R := by
  refine hu.append hv fun p _ c' hc' => ?_
  obtain rfl : c = c' := Option.some.inj hc'
  exact hr c hc p

theorem isChain_awaiting (hl : ∀ p ∈ ['(', '+', '.'], ∀ c, R p c) {p : Char}
    (hp : p ∈ ['(', '+', '.']) (hu : u.IsChain R) : (p :: u).IsChain R :=
  hu.cons fun c _ => hl p hp c

/-- Neighbours are related if anything may follow what waits for an operand, if anything may stand
in front of what begins none, and if a parenthesis may follow a star. -/
theorem isChain_text (hl : ∀ p ∈ ['(', '+', '.'], ∀ c, R p c)
    (hr : ∀ c ∈ [')', '+', '.', '*'], ∀ p, R p c) (hs : R '*' '(') :
    ∀ {r : Rank} {b : Bool} (d : Draft r b), d.text.IsChain R
  | _, _, .operand c => List.isChain_singleton c
  | _, _, .group e =>
    isChain_awaiting hl (by decide)
      (isChain_behind hr (by decide) (isChain_text hl hr hs e) (List.isChain_singleton _))
  | _, _, .blank => List.isChain_nil
  | _, _, .plain a => isChain_text hl hr hs a
  | _, _, .star f =>
    isChain_behind hr (by decide) (isChain_text hl hr hs f) (List.isChain_singleton _)
  | _, _, .beside f e => by
    have hf := isChain_text hl hr hs f
    have he := isChain_text hl hr hs e
    have hclose := isChain_behind hr (by decide) he (List.isChain_singleton ')')
    have hopen := isChain_awaiting hl (p := '(') (by decide) hclose
    exact isChain_behind hr (by decide) hf (List.isChain_cons_cons.2 ⟨hs, hopen⟩)
  | _, _, .single f => isChain_text hl hr hs f
  | _, _, .concat t f =>
    isChain_behind hr (by decide) (isChain_text hl hr hs t)
      (isChain_awaiting hl (by decide) (isChain_text hl hr hs f))
  | _, _, .alone t => isChain_text hl hr hs t
  | _, _, .union e t =>
    isChain_behind hr (by decide) (isChain_text hl hr hs e)
      (isChain_awaiting hl (by decide) (isChain_text hl hr hs t))

/-- The text of a draft is an explicit form. -/
theorem spaced_text (d : Draft r b) : Spaced A d.text :=
  d.isChain_text (fun _ hp => joined_awaiting A hp) (fun _ hc => joined_behind A hc)
    (joined_star_opening A)

end Chain

theorem groupsBehindStar_text : ∀ {r : Rank} {b : Bool} (d : Draft r b),
    groupsBehindStar d.text = d.besides
  | _, _, .operand c => by simp [text, groupsBehindStar, besides]
  | _, _, .group e => by
    rw [text, groupsBehindStar_cons (by decide), groupsBehindStar_append (by decide),
      e.groupsBehindStar_text]
    rfl
  | _, _, .blank => rfl
  | _, _, .plain a => a.groupsBehindStar_text
  | _, _, .star f => by
    rw [text, groupsBehindStar_append (by decide), f.groupsBehindStar_text]
    rfl
  | _, _, .beside f e => by
    have he : groupsBehindStar ('*' :: '(' :: (e.text ++ [')'])) = e.besides + 1 := by
      rw [groupsBehindStar, groupsBehindStar_cons (by decide), groupsBehindStar_append (by decide),
        e.groupsBehindStar_text, Nat.add_comm]
      rfl
    rw [text, groupsBehindStar_append (by decide), f.groupsBehindStar_text, he]
    rfl
  | _, _, .single f => f.groupsBehindStar_text
  | _, _, .concat t f => by
    rw [text, groupsBehindStar_append (by decide), groupsBehindStar_cons (by decide),
      t.groupsBehindStar_text, f.groupsBehindStar_text]
    rfl
  | _, _, .alone t => t.groupsBehindStar_text
  | _, _, .union e t => by
    rw [text, groupsBehindStar_append (by decide), groupsBehindStar_cons (by decide),
      e.groupsBehindStar_text, t.groupsBehindStar_text]
    rfl

/-- A group right behind a star shows in the text. -/
theorem infix_text_iff (d : Draft r b) : ['*', '('] <:+: d.text ↔ d.besides ≠ 0 := by
  rw [infix_iff_groupsBehindStar, d.groupsBehindStar_text]

def ending? : {r : Rank} → {b : Bool} → Draft r b → Option Char
  | _, _, .operand c => some c
  | _, _, .group _ => some ')'
  | _, _, .blank => none
  | _, _, .plain a => a.ending?
  | _, _, .star _ => some '*'
  | _, _, .beside _ _ => some ')'
  | _, _, .single f => f.ending?
  | _, _, .concat _ f => f.ending?.or (some '.')
  | _, _, .alone t => t.ending?
  | _, _, .union _ t => t.ending?.or (some '+')

/-- With its last operand a draft ends in an operand, a closing parenthesis or a star. -/
theorem ending?_eq_some {p : Char → Prop} : ∀ {r : Rank} (d : Draft r true), d.Over p →
    ∃ c, d.ending? = some c ∧ (p c ∨ c = ')' ∨ c = '*')
  | _, .operand c, h => ⟨c, rfl, .inl h⟩
  | _, .group _, _ => ⟨')', rfl, .inr (.inl rfl)⟩
  | _, .plain a, h => a.ending?_eq_some h
  | _, .star _, _ => ⟨'*', rfl, .inr (.inr rfl)⟩
  | _, .beside _ _, _ => ⟨')', rfl, .inr (.inl rfl)⟩
  | _, .single f, h => f.ending?_eq_some h
  | _, .concat t f, h => by
    obtain ⟨c, hc, hor⟩ := f.ending?_eq_some h.2
    exact ⟨c, by rw [ending?, hc, Option.some_or], hor⟩
  | _, .alone t, h => t.ending?_eq_some h
  | _, .union e t, h => by
    obtain ⟨c, hc, hor⟩ := t.ending?_eq_some h.2
    exact ⟨c, by rw [ending?, hc, Option.some_or], hor⟩

end Draft

namespace Derivation

def draft : {r : Rank} → Derivation r → Draft r true
  | _, .operand c => .operand c
  | _, .group e => .group e.draft
  | _, .plain a => .plain a.draft
  | _, .star f => .star f.draft
  | _, .single f => .single f.draft
  | _, .concat t f => .concat t.draft f.draft
  | _, .alone t => .alone t.draft
  | _, .union e t => .union e.draft t.draft

theorem text_draft : ∀ {r : Rank} (d : Derivation r), d.draft.text = d.text
  | _, .operand _ => rfl
  | _, .group e => by simp [draft, Draft.text, text, e.text_draft]
  | _, .plain a => a.text_draft
  | _, .star f => by rw [draft, Draft.text, text, f.text_draft]
  | _, .single f => f.text_draft
  | _, .concat t f => by rw [draft, Draft.text, text, t.text_draft, f.text_draft]
  | _, .alone t => t.text_draft
  | _, .union e t => by rw [draft, Draft.text, text, e.text_draft, t.text_draft]

theorem postOrder_draft : ∀ {r : Rank} (d : Derivation r), d.draft.postOrder = d.postOrder
  | _, .operand _ => rfl
  | _, .group e => e.postOrder_draft
  | _, .plain a => a.postOrder_draft
  | _, .star f => by rw [draft, Draft.postOrder, postOrder, f.postOrder_draft]
  | _, .single f => f.postOrder_draft
  | _, .concat t f => by
    rw [draft, Draft.postOrder, postOrder, t.postOrder_draft, f.postOrder_draft]
  | _, .alone t => t.postOrder_draft
  | _, .union e t => by
    rw [draft, Draft.postOrder, postOrder, e.postOrder_draft, t.postOrder_draft]

theorem over_draft {p : Char → Prop} : ∀ {r : Rank} (d : Derivation r), d.draft.Over p ↔ d.Over p
  | _, .operand _ => Iff.rfl
  | _, .group e => e.over_draft
  | _, .plain a => a.over_draft
  | _, .star f => f.over_draft
  | _, .single f => f.over_draft
  | _, .concat t f => and_congr t.over_draft f.over_draft
  | _, .alone t => t.over_draft
  | _, .union e t => and_congr e.over_draft t.over_draft

theorem starsApart_draft : ∀ {r : Rank} (d : Derivation r), d.draft.StarsApart ↔ d.StarsApart
  | _, .operand _ => Iff.rfl
  | _, .group e => e.starsApart_draft
  | _, .plain a => a.starsApart_draft
  | _, .star (.plain a) => by
    have ha := a.starsApart_draft
    simpa [draft, Draft.StarsApart, Draft.endsInStar, StarsApart] using ha
  | _, .star (.star f) => by simp [draft, Draft.StarsApart, Draft.endsInStar, StarsApart]
  | _, .single f => f.starsApart_draft
  | _, .concat t f => and_congr t.starsApart_draft f.starsApart_draft
  | _, .alone t => t.starsApart_draft
  | _, .union e t => and_congr e.starsApart_draft t.starsApart_draft

theorem gaps_draft : ∀ {r : Rank} (d : Derivation r), d.draft.gaps = 0
  | _, .operand _ => rfl
  | _, .group e => e.gaps_draft
  | _, .plain a => a.gaps_draft
  | _, .star f => f.gaps_draft
  | _, .single f => f.gaps_draft
  | _, .concat t f => Nat.add_eq_zero_iff.2 ⟨t.gaps_draft, f.gaps_draft⟩
  | _, .alone t => t.gaps_draft
  | _, .union e t => Nat.add_eq_zero_iff.2 ⟨e.gaps_draft, t.gaps_draft⟩

theorem besides_draft : ∀ {r : Rank} (d : Derivation r), d.draft.besides = 0
  | _, .operand _ => rfl
  | _, .group e => e.besides_draft
  | _, .plain a => a.besides_draft
  | _, .star f => f.besides_draft
  | _, .single f => f.besides_draft
  | _, .concat t f => Nat.add_eq_zero_iff.2 ⟨t.besides_draft, f.besides_draft⟩
  | _, .alone t => t.besides_draft
  | _, .union e t => Nat.add_eq_zero_iff.2 ⟨e.besides_draft, t.besides_draft⟩

end Derivation

theorem Draft.whole_of_gaps_eq_zero : ∀ {r : Rank} {b : Bool} (d : Draft r b), d.gaps = 0 →
    b = true
  | _, true, _, _ => rfl
  | _, false, .blank, h => by cases h
  | _, false, .single f, h => f.whole_of_gaps_eq_zero h
  | _, false, .concat _ f, h => f.whole_of_gaps_eq_zero (Nat.add_eq_zero_iff.1 h).2
  | _, false, .alone t, h => t.whole_of_gaps_eq_zero h
  | _, false, .union _ t, h => t.whole_of_gaps_eq_zero (Nat.add_eq_zero_iff.1 h).2

/-- A draft in which nothing is missing and no group stands beside a star is a derivation. -/
theorem Draft.exists_derivation : ∀ {r : Rank} (d : Draft r true), d.gaps = 0 → d.besides = 0 →
    ∃ d' : Derivation r, d'.draft = d
  | _, .operand c, _, _ => ⟨.operand c, rfl⟩
  | _, @Draft.group true e, hg, hb => by
    obtain ⟨e', he⟩ := e.exists_derivation hg hb
    exact ⟨.group e', by rw [Derivation.draft, he]⟩
  | _, @Draft.group false e, hg, _ => by cases e.whole_of_gaps_eq_zero hg
  | _, .plain a, hg, hb => by
    obtain ⟨a', ha⟩ := a.exists_derivation hg hb
    exact ⟨.plain a', by rw [Derivation.draft, ha]⟩
  | _, .star f, hg, hb => by
    obtain ⟨f', hf⟩ := f.exists_derivation hg hb
    exact ⟨.star f', by rw [Derivation.draft, hf]⟩
  | _, .beside _ _, _, hb => by cases hb
  | _, .single f, hg, hb => by
    obtain ⟨f', hf⟩ := f.exists_derivation hg hb
    exact ⟨.single f', by rw [Derivation.draft, hf]⟩
  | _, .concat t f, hg, hb => by
    obtain ⟨hgt, hgf⟩ := Nat.add_eq_zero_iff.1 hg
    obtain ⟨hbt, hbf⟩ := Nat.add_eq_zero_iff.1 hb
    obtain ⟨t', ht⟩ := t.exists_derivation hgt hbt
    obtain ⟨f', hf⟩ := f.exists_derivation hgf hbf
    exact ⟨.concat t' f', by rw [Derivation.draft, ht, hf]⟩
  | _, .alone t, hg, hb => by
    obtain ⟨t', ht⟩ := t.exists_derivation hg hb
    exact ⟨.alone t', by rw [Derivation.draft, ht]⟩
  | _, .union e t, hg, hb => by
    obtain ⟨hge, hgt⟩ := Nat.add_eq_zero_iff.1 hg
    obtain ⟨hbe, hbt⟩ := Nat.add_eq_zero_iff.1 hb
    obtain ⟨e', he⟩ := e.exists_derivation hge hbe
    obtain ⟨t', ht⟩ := t.exists_derivation hgt hbt
    exact ⟨.union e' t', by rw [Derivation.draft, he, ht]⟩

end RegexAutomata.Expression
