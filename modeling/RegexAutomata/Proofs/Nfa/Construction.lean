import RegexAutomata.Proofs.Nfa.Assembly
import RegexAutomata.Proofs.Nfa.Language
import RegexAutomata.Proofs.Postfix.Language

/-! Constructions with one count of issued ids: fragments are made and joined in any order, and
each is used up when it is joined. Every fragment has the language of its construction. -/
namespace RegexAutomata

/-- The automata that can be at hand when `n` ids are issued, each with its intended language. -/
inductive Construction : Nat → List (Nfa × Language Char) → Prop
  | start (n : Nat) : Construction n []
  | issue {n : Nat} {p : List (Nfa × Language Char)} : Construction n p → Construction (n + 1) p
  | reorder {n : Nat} {p q : List (Nfa × Language Char)} :
      Construction n p → p.Perm q → Construction n q
  | symbol {n : Nat} {p : List (Nfa × Language Char)} (c : Char) :
      Construction n p → Construction (n + 2) ((.symbol n c, {[c]}) :: p)
  | star {n : Nat} {p : List (Nfa × Language Char)} {m : Nfa} {L : Language Char} :
      Construction n ((m, L) :: p) → Construction (n + 2) ((m.star n, KStar.kstar L) :: p)
  | union {n : Nat} {p : List (Nfa × Language Char)} {l r : Nfa} {L R : Language Char} :
      Construction n ((r, R) :: (l, L) :: p) → Construction (n + 2) ((l.union n r, L + R) :: p)
  | concat {n : Nat} {p : List (Nfa × Language Char)} {l r : Nfa} {L R : Language Char} :
      Construction n ((r, R) :: (l, L) :: p) → Construction n ((l.concat r, L * R) :: p)

namespace Construction
open Nfa
variable {n k : Nat} {m l r : Nfa} {L R : Language Char} {p q : List (Nfa × Language Char)}

def Apart (x y : Nfa × Language Char) : Prop := ∀ i, x.1.Has i → ¬ y.1.Has i

theorem Apart.symm {x y : Nfa × Language Char} (h : Apart x y) : Apart y x :=
  fun i hy hx => h i hx hy

structure Good (n : Nat) (x : Nfa × Language Char) : Prop where
  fragment : Fragment x.1
  lt : ∀ {i}, x.1.Has i → i < n
  language : x.1.language = x.2

theorem Good.mono {x : Nfa × Language Char} (h : Good n x) (hk : n ≤ k) : Good k x :=
  ⟨h.fragment, fun hi => Nat.lt_of_lt_of_le (h.lt hi) hk, h.language⟩

theorem Good.not_has {x : Nfa × Language Char} (h : Good n x) (hk : n ≤ k) : ¬ x.1.Has k :=
  fun hi => Nat.not_lt.2 hk (h.lt hi)

theorem good_symbol (n : Nat) (c : Char) : Good (n + 2) (Nfa.symbol n c, {[c]}) where
  fragment := fragment_symbol n c
  lt := by
    intro i hi
    have hi' := has_symbol.1 hi
    omega
  language := language_symbol n c

theorem Good.star (h : Good n (m, L)) : Good (n + 2) (m.star n, KStar.kstar L) := by
  have hn : ¬ m.Has n := h.not_has (Nat.le_refl n)
  have hn' : ¬ m.Has (n + 1) := h.not_has (Nat.le_succ n)
  refine ⟨h.fragment.star hn hn', ?_, ?_⟩
  · intro i hi
    obtain hi | hi | hi := has_star.1 hi
    · omega
    · omega
    · have hlt := h.lt hi
      omega
  · change (m.star n).language = KStar.kstar L
    rw [language_star h.fragment hn hn', show m.language = L from h.language]

theorem Good.union (hl : Good n (l, L)) (hr : Good n (r, R)) (h : Apart (l, L) (r, R)) :
    Good (n + 2) (l.union n r, L + R) := by
  have hln : ¬ l.Has n := hl.not_has (Nat.le_refl n)
  have hln' : ¬ l.Has (n + 1) := hl.not_has (Nat.le_succ n)
  have hrn : ¬ r.Has n := hr.not_has (Nat.le_refl n)
  have hrn' : ¬ r.Has (n + 1) := hr.not_has (Nat.le_succ n)
  refine ⟨hl.fragment.union hr.fragment hln hln' hrn hrn' h, ?_, ?_⟩
  · intro i hi
    obtain hi | hi | hi | hi := has_union.1 hi
    · omega
    · omega
    · have hlt := hl.lt hi
      omega
    · have hlt := hr.lt hi
      omega
  · change (l.union n r).language = L + R
    rw [language_union hl.fragment hr.fragment hln hln' hrn hrn' h,
      show l.language = L from hl.language, show r.language = R from hr.language]

theorem Good.concat (hl : Good n (l, L)) (hr : Good n (r, R)) (h : Apart (l, L) (r, R)) :
    Good n (l.concat r, L * R) := by
  refine ⟨hl.fragment.concat hr.fragment h, ?_, ?_⟩
  · intro i hi
    cases has_concat.1 hi with
    | inl hi => exact hl.lt hi
    | inr hi => exact hr.lt hi.1
  · change (l.concat r).language = L * R
    rw [language_concat hl.fragment hr.fragment h, show l.language = L from hl.language,
      show r.language = R from hr.language]

structure Sound (n : Nat) (p : List (Nfa × Language Char)) : Prop where
  good : ∀ x ∈ p, Good n x
  apart : p.Pairwise Apart

/-- New ids, and ids of fragments that are used up, occur in no other fragment. -/
theorem Sound.cons {x : Nfa × Language Char} (hx : Good k x) (hk : n ≤ k)
    (h : Sound n p) (hids : ∀ y ∈ p, ∀ i, x.1.Has i → n ≤ i ∨ ¬ y.1.Has i) :
    Sound k (x :: p) where
  good := List.forall_mem_cons.2 ⟨hx, fun y hy => (h.good y hy).mono hk⟩
  apart := by
    refine List.pairwise_cons.2 ⟨fun y hy i hi => ?_, h.apart⟩
    cases hids y hy i hi with
    | inl hle => exact (h.good y hy).not_has hle
    | inr hnot => exact hnot

theorem Sound.tail {x : Nfa × Language Char} (h : Sound n (x :: p)) : Sound n p :=
  ⟨fun y hy => h.good y (List.mem_cons_of_mem x hy), (List.pairwise_cons.1 h.apart).2⟩

theorem sound (h : Construction n p) : Sound n p := by
  induction h with
  | start n => exact ⟨fun x hx => (List.not_mem_nil hx).elim, .nil⟩
  | issue _ ih => exact ⟨fun x hx => (ih.good x hx).mono (Nat.le_succ _), ih.apart⟩
  | reorder _ hpq ih =>
    refine ⟨fun x hx => ih.good x (hpq.mem_iff.2 hx), ?_⟩
    exact (hpq.pairwise_iff fun {x y} => Apart.symm).1 ih.apart
  | symbol c _ ih =>
    refine ih.cons (good_symbol _ c) (by omega) fun y hy i hi => .inl ?_
    have hi' := has_symbol.1 hi
    omega
  | @star n p m L _ ih =>
    have hm : Good n (m, L) := ih.good _ List.mem_cons_self
    refine ih.tail.cons hm.star (by omega) fun y hy i hi => ?_
    obtain hi | hi | hi := has_star.1 hi
    · exact .inl (by omega)
    · exact .inl (by omega)
    · exact .inr ((List.pairwise_cons.1 ih.apart).1 y hy i hi)
  | @union n p l r L R _ ih =>
    have hr : Good n (r, R) := ih.good _ List.mem_cons_self
    have hl : Good n (l, L) := ih.tail.good _ List.mem_cons_self
    obtain ⟨hapart, happart'⟩ := List.pairwise_cons.1 ih.apart
    have hlr : Apart (l, L) (r, R) := (hapart _ List.mem_cons_self).symm
    refine ih.tail.tail.cons (hl.union hr hlr) (by omega) fun y hy i hi => ?_
    obtain hi | hi | hi | hi := has_union.1 hi
    · exact .inl (by omega)
    · exact .inl (by omega)
    · exact .inr ((List.pairwise_cons.1 happart').1 y hy i hi)
    · exact .inr (hapart y (List.mem_cons_of_mem _ hy) i hi)
  | @concat n p l r L R _ ih =>
    have hr : Good n (r, R) := ih.good _ List.mem_cons_self
    have hl : Good n (l, L) := ih.tail.good _ List.mem_cons_self
    obtain ⟨hapart, happart'⟩ := List.pairwise_cons.1 ih.apart
    have hlr : Apart (l, L) (r, R) := (hapart _ List.mem_cons_self).symm
    refine ih.tail.tail.cons (hl.concat hr hlr) (Nat.le_refl n) fun y hy i hi => .inr ?_
    cases has_concat.1 hi with
    | inl hi => exact (List.pairwise_cons.1 happart').1 y hy i hi
    | inr hi => exact hapart y (List.mem_cons_of_mem _ hy) i hi.1

section Assembly
variable {A : Alphabet} {w w' : Assembly} {position : Nat} {c : Char} {o : Operator} {t : List Char}

theorem eq_cons_of_map {m : Nfa} {rest : List Nfa} (h : p.map Prod.fst = m :: rest) :
    ∃ L q, p = (m, L) :: q ∧ q.map Prod.fst = rest := by
  obtain ⟨⟨_, L⟩, q, rfl, rfl, hq⟩ := List.map_eq_cons_iff.1 h
  exact ⟨L, q, rfl, hq⟩

/-- An operator acts on the fragments of a stack as it acts on their languages. -/
theorem operate? (hp : Construction w.issued p) (hw : w.stack = p.map Prod.fst)
    (h : w.operate? o = some w') :
    ∃ q, Construction w'.issued q ∧ w'.stack = q.map Prod.fst ∧
      Postfix.combine o (p.map Prod.snd) = some (q.map Prod.snd) := by
  obtain ⟨m, rest, rfl, hs, rfl⟩ | ⟨l, r, rest, rfl, hs, rfl⟩ | ⟨l, r, rest, rfl, hs, rfl⟩ :=
    Assembly.operate?_eq_some h
  · obtain ⟨L, q, rfl, rfl⟩ := eq_cons_of_map (hw.symm.trans hs)
    exact ⟨_, hp.star, rfl, rfl⟩
  · obtain ⟨R, q, rfl, hq⟩ := eq_cons_of_map (hw.symm.trans hs)
    obtain ⟨L, q, rfl, rfl⟩ := eq_cons_of_map hq
    exact ⟨_, hp.union, rfl, rfl⟩
  · obtain ⟨R, q, rfl, hq⟩ := eq_cons_of_map (hw.symm.trans hs)
    obtain ⟨L, q, rfl, rfl⟩ := eq_cons_of_map hq
    exact ⟨_, hp.concat, rfl, rfl⟩

theorem step (hp : Construction w.issued p) (hw : w.stack = p.map Prod.fst)
    (h : w.step A position c = .ok w') :
    ∃ q, Construction w'.issued q ∧ w'.stack = q.map Prod.fst ∧
      Postfix.perform (p.map Prod.snd) c = some (q.map Prod.snd) := by
  cases Assembly.step_eq_ok h with
  | inl hc =>
    obtain ⟨hc, _, rfl⟩ := hc
    refine ⟨_, hp.symbol c, ?_, ?_⟩
    · simp [Assembly.pushSymbol, hw]
    · simp [Postfix.perform, hc]
  | inr hc =>
    obtain ⟨o, hc, ho⟩ := hc
    obtain ⟨q, hq, hstack, hcombine⟩ := hp.operate? hw ho
    refine ⟨q, hq, hstack, ?_⟩
    simp only [Postfix.perform, hc]
    exact hcombine

theorem run (hp : Construction w.issued p) (hw : w.stack = p.map Prod.fst)
    (h : (w.run A position t).fault = none) :
    ∃ q, Construction (w.run A position t).last.issued q ∧
      (w.run A position t).last.stack = q.map Prod.fst ∧
      Postfix.evaluate (p.map Prod.snd) t = some (q.map Prod.snd) := by
  induction t generalizing position w p with
  | nil => exact ⟨p, hp, hw, rfl⟩
  | cons c t ih =>
    cases hs : w.step A position c with
    | error f => simp [Assembly.run, hs] at h
    | ok w' =>
      simp only [Assembly.run, hs] at h ⊢
      obtain ⟨q, hq, hstack, hperform⟩ := hp.step hw hs
      rw [Postfix.evaluate, hperform]
      exact ih hq hstack h

end Assembly

/-- What is built from a postfix form is one fragment, of the language of that form. -/
theorem ofPostfix {A : Alphabet} {t : List Char} (h : (Nfa.ofPostfix A n t).result = .ok m) :
    Fragment m ∧ Postfix.language? t = some m.language := by
  obtain ⟨hfault, hlast⟩ := ofPostfix_eq_ok.1 h
  obtain ⟨q, hq, hstack, heval⟩ := run (w := ⟨n, []⟩) (start n) rfl hfault
  obtain ⟨L, q, rfl, hnil⟩ := eq_cons_of_map (hstack.symm.trans hlast)
  obtain rfl := List.map_eq_nil_iff.1 hnil
  have hm := hq.sound.good _ List.mem_cons_self
  refine ⟨hm.fragment, ?_⟩
  rw [Postfix.language?, show Postfix.evaluate [] t = some [L] from heval]
  exact congrArg some hm.language.symm

/-- Every fragment at hand spells the language that goes with it, whatever was made before it and
in whatever order, and a postfix form is built to the language it evaluates to. -/
theorem spells_language :
    (∀ (n : Nat) (p : List (Nfa × Language Char)), Construction n p →
      ∀ x ∈ p, ∀ w, x.1.Spells w ↔ w ∈ x.2) ∧
    ∀ (A : Alphabet) (n : Nat) (t : List Char) (m : Nfa), (Nfa.ofPostfix A n t).result = .ok m →
      ∃ L, Postfix.language? t = some L ∧ ∀ w, m.Spells w ↔ w ∈ L := by
  constructor
  · intro n p hp x hx w
    rw [← (hp.sound.good x hx).language]
    rfl
  · intro A n t m h
    exact ⟨m.language, (ofPostfix h).2, fun w => Iff.rfl⟩

/-- The right operand of a product made before the left one, and a form built from id 3 on. -/
theorem spells_language_instance :
    Construction 6 [(((Nfa.symbol 2 'a').concat (Nfa.symbol 0 'b')).star 4,
      KStar.kstar ({['a']} * {['b']}))] ∧
    (∀ w, (((Nfa.symbol 2 'a').concat (Nfa.symbol 0 'b')).star 4).Spells w ↔
      w ∈ KStar.kstar (({['a']} : Language Char) * {['b']})) ∧
    (Nfa.ofPostfix (Alphabet.empty.extend ['a', 'b']) 3 ['a', 'b', '+']).result =
      .ok ((Nfa.symbol 3 'a').union 7 (Nfa.symbol 5 'b')) ∧
    ∃ L, Postfix.language? ['a', 'b', '+'] = some L ∧
      ∀ w, ((Nfa.symbol 3 'a').union 7 (Nfa.symbol 5 'b')).Spells w ↔ w ∈ L := by
  have hp := (((start 0).symbol 'b').symbol 'a').reorder (List.Perm.swap ..)
  have hb : (Nfa.ofPostfix (Alphabet.empty.extend ['a', 'b']) 3 ['a', 'b', '+']).result =
      .ok ((Nfa.symbol 3 'a').union 7 (Nfa.symbol 5 'b')) := by decide
  refine ⟨hp.concat.star, ?_, hb, spells_language.2 _ 3 _ _ hb⟩
  exact spells_language.1 6 _ hp.concat.star _ List.mem_cons_self

end Construction
end RegexAutomata
