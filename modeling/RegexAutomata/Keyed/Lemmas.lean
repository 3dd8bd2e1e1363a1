import RegexAutomata.Keyed

/-! The view of a keyed set is the look-up by key: it decides the set, and every operation is
one equation of look-ups. For sets of ids the view is membership. -/
namespace RegexAutomata.Keyed
variable {α : Type} {key : α → Nat} {s t : Keyed key} {a : α} {k : Nat}

theorem mem_toList : a ∈ s.toList ↔ a ∈ s := Iff.rfl

theorem eq_of_mem_of_key_eq {b : α} (ha : a ∈ s) (hb : b ∈ s) (h : key a = key b) : a = b := by
  obtain ⟨l, hs⟩ := s
  rw [← mem_toList] at ha hb
  induction l with
  | nil => simp at ha
  | cons x l ih =>
    obtain ⟨hx, hl⟩ := List.pairwise_cons.1 hs
    rcases List.mem_cons.1 ha with hax | hal
    · rcases List.mem_cons.1 hb with hbx | hbl
      · exact hax.trans hbx.symm
      · have := hax ▸ hx b hbl
        omega
    · rcases List.mem_cons.1 hb with hbx | hbl
      · have := hbx ▸ hx a hal
        omega
      · exact ih hl hal hbl

theorem find?_eq_some_iff : s.find? k = some a ↔ a ∈ s ∧ key a = k := by
  constructor
  · intro h
    exact ⟨List.mem_of_find?_eq_some h, by simpa using List.find?_some h⟩
  · rintro ⟨ha, rfl⟩
    cases h : s.find? (key a) with
    | none =>
      have := List.find?_eq_none.1 h a ha
      simp at this
    | some b =>
      have hb : key b = key a := by simpa using List.find?_some h
      rw [eq_of_mem_of_key_eq (List.mem_of_find?_eq_some h) ha hb]

theorem find?_eq_none_iff : s.find? k = none ↔ ∀ a ∈ s, key a ≠ k := by
  simp [find?, List.find?_eq_none, mem_toList]

theorem mem_iff_find? : a ∈ s ↔ s.find? (key a) = some a := by simp [find?_eq_some_iff]

theorem nodup (s : Keyed key) : s.toList.Nodup :=
  s.ascending.imp fun hab hne => by subst hne; omega

theorem ext_mem (h : ∀ a, a ∈ s ↔ a ∈ t) : s = t := by
  have hperm : s.toList.Perm t.toList := (List.perm_ext_iff_of_nodup s.nodup t.nodup).2 h
  refine toList_inj.1 (hperm.eq_of_pairwise ?_ s.ascending t.ascending)
  intro a b _ _ hab hba
  omega

theorem ext_find? (h : ∀ k, s.find? k = t.find? k) : s = t :=
  ext_mem fun a => by rw [mem_iff_find?, mem_iff_find?, h]

@[simp] theorem find?_empty : (empty : Keyed key).find? k = none := rfl

theorem find?_place (a : α) (k : Nat) {l : List α}
    (hl : l.Pairwise (fun x y => key x < key y)) :
    (place key a l).find? (fun x => key x == k) =
      if key a = k then some a else l.find? (fun x => key x == k) := by
  induction l with
  | nil => by_cases h : key a = k <;> simp [place, h]
  | cons b l ih =>
    obtain ⟨hb, hl⟩ := List.pairwise_cons.1 hl
    by_cases h : key a = k
    · subst h
      by_cases hab : key a < key b
      · simp [place, hab]
      · by_cases hab' : key a = key b
        · simp [place, hab']
        · have hne : key b ≠ key a := fun he => hab' he.symm
          simp [place, hab, hab', hne, ih hl]
    · by_cases hab : key a < key b
      · simp [place, hab, h]
      · by_cases hab' : key a = key b
        · have hne : key b ≠ k := fun he => h (hab'.trans he)
          simp [place, hab', hne]
        · simp [place, hab, hab', List.find?_cons, ih hl, h]

@[simp] theorem find?_insert (s : Keyed key) (a : α) (k : Nat) :
    (s.insert a).find? k = if key a = k then some a else s.find? k :=
  find?_place a k s.ascending

theorem mem_insert {b : α} : b ∈ s.insert a ↔ b = a ∨ (b ∈ s ∧ key b ≠ key a) := by
  rw [mem_iff_find?, find?_insert]
  by_cases h : key a = key b
  · simp only [h, if_true, Option.some.injEq]
    exact ⟨fun he => .inl he.symm, fun he => he.elim Eq.symm fun hb => (hb.2 rfl).elim⟩
  · have hne : b ≠ a := fun he => h (he ▸ rfl)
    have hne' : ¬ key b = key a := fun he => h he.symm
    simp [h, hne, hne', mem_iff_find?]

private theorem find?_foldr_insert (l : List α) (s : Keyed key) (k : Nat) :
    (l.foldr insert s).find? k = (l.find? (fun x => key x == k)).or (s.find? k) := by
  induction l with
  | nil => rfl
  | cons b l ih => by_cases h : key b = k <;> simp [h, ih]

@[simp] theorem find?_union (s t : Keyed key) (k : Nat) :
    (s.union t).find? k = (t.find? k).or (s.find? k) :=
  find?_foldr_insert t.toList s k

@[simp] theorem find?_ofList (l : List α) (k : Nat) :
    (ofList l : Keyed key).find? k = l.find? (fun x => key x == k) := by
  rw [ofList, find?_foldr_insert]
  simp

theorem ofList_toList (s : Keyed key) : ofList s.toList = s :=
  ext_find? fun k => find?_ofList s.toList k

@[simp] theorem find?_modify (s : Keyed key) (j : Nat) (f : α → α) (hf : ∀ a, key (f a) = key a)
    (k : Nat) :
    (s.modify j f hf).find? k = if k = j then (s.find? k).map f else s.find? k := by
  have hkey : ∀ a, key (if key a = j then f a else a) = key a := by
    intro a
    by_cases h : key a = j <;> simp [h, hf]
  simp only [modify, find?, List.find?_map, Function.comp_def, hkey]
  by_cases hk : k = j
  · subst hk
    cases h : s.toList.find? (fun a => key a == k) with
    | none => simp
    | some a =>
      have ha : key a = k := by simpa using List.find?_some h
      simp [ha]
  · cases h : s.toList.find? (fun a => key a == k) with
    | none => simp
    | some a =>
      have ha : key a = k := by simpa using List.find?_some h
      simp [ha, hk]

@[simp] theorem mem_filter {p : α → Bool} : a ∈ s.filter p ↔ a ∈ s ∧ p a = true :=
  List.mem_filter

theorem find?_filter_key (s : Keyed key) (p : Nat → Bool) (k : Nat) :
    (s.filter (fun a => p (key a))).find? k = if p k = true then s.find? k else none := by
  by_cases hp : p k = true
  · rw [if_pos hp]
    refine Option.ext fun a => ?_
    rw [find?_eq_some_iff, find?_eq_some_iff, mem_filter]
    exact ⟨fun ⟨⟨ha, _⟩, hk⟩ => ⟨ha, hk⟩, fun ⟨ha, hk⟩ => ⟨⟨ha, hk ▸ hp⟩, hk⟩⟩
  · rw [if_neg hp]
    refine find?_eq_none_iff.2 fun a ha hk => hp ?_
    exact hk ▸ (mem_filter.1 ha).2

@[simp] theorem find?_erase (s : Keyed key) (j k : Nat) :
    (s.erase j).find? k = if k = j then none else s.find? k := by
  rw [erase, find?_filter_key s (fun i => i != j)]
  by_cases h : k = j <;> simp [h]

theorem mem_erase : a ∈ s.erase k ↔ a ∈ s ∧ key a ≠ k := by simp [erase]

section perm

/-- Where no keys collide, no element gives way to another one. -/
theorem perm_union (h : ∀ a ∈ s, ∀ b ∈ t, key a ≠ key b) :
    (s.union t).toList.Perm (s.toList ++ t.toList) := by
  have hnodup : (s.toList ++ t.toList).Nodup :=
    List.nodup_append.2 ⟨s.nodup, t.nodup, fun a ha b hb he => h a ha b hb (he ▸ rfl)⟩
  refine (List.perm_ext_iff_of_nodup (nodup _) hnodup).2 fun a => ?_
  rw [mem_toList, mem_iff_find?, find?_union, Option.or_eq_some_iff, List.mem_append, mem_toList,
    mem_toList, mem_iff_find? (s := t), mem_iff_find? (s := s), find?_eq_none_iff, or_comm]
  refine or_congr_left (and_iff_right_of_imp fun ha b hb => ?_)
  exact (h a (mem_iff_find?.2 ha) b hb).symm

theorem perm_cons_erase (h : s.find? k = some a) : s.toList.Perm (a :: (s.erase k).toList) := by
  obtain ⟨ha, hk⟩ := find?_eq_some_iff.1 h
  have hnodup : (a :: (s.erase k).toList).Nodup :=
    List.nodup_cons.2 ⟨fun hmem => (mem_erase.1 hmem).2 hk, nodup _⟩
  refine (List.perm_ext_iff_of_nodup s.nodup hnodup).2 fun b => ?_
  rw [mem_toList, List.mem_cons, mem_toList, mem_erase]
  constructor
  · intro hb
    by_cases hbk : key b = k
    · exact .inl (eq_of_mem_of_key_eq hb ha (hbk.trans hk.symm))
    · exact .inr ⟨hb, hbk⟩
  · rintro (rfl | hb)
    · exact ha
    · exact hb.1

theorem perm_modify (h : s.find? k = some a) (f : α → α) (hf : ∀ a, key (f a) = key a) :
    (s.modify k f hf).toList.Perm (f a :: (s.erase k).toList) := by
  have hk : key a = k := (find?_eq_some_iff.1 h).2
  have hrest : ((s.erase k).toList.map fun b => if key b = k then f b else b) =
      (s.erase k).toList :=
    (List.map_congr_left fun b hb => if_neg (mem_erase.1 hb).2).trans (List.map_id _)
  have hperm := (perm_cons_erase h).map fun b => if key b = k then f b else b
  rwa [List.map_cons, if_pos hk, hrest] at hperm

end perm

end RegexAutomata.Keyed

namespace RegexAutomata.IdSet
variable {s t : IdSet} {i j : Nat}

theorem ext (h : ∀ i, i ∈ s ↔ i ∈ t) : s = t := Keyed.ext_mem h

@[simp] theorem mem_insert : j ∈ Keyed.insert i s ↔ j = i ∨ j ∈ s := by
  rw [Keyed.mem_insert]
  by_cases h : j = i <;> simp [h]

private theorem mem_foldr_insert (l : List Nat) (s : IdSet) :
    j ∈ l.foldr Keyed.insert s ↔ j ∈ l ∨ j ∈ s := by
  induction l with
  | nil => simp
  | cons i l ih => rw [List.foldr_cons, mem_insert, ih, List.mem_cons, or_assoc]

@[simp] theorem not_mem_empty : ¬ j ∈ (Keyed.empty : IdSet) := by
  intro h
  cases h

@[simp] theorem mem_ofList {l : List Nat} : j ∈ (Keyed.ofList l : IdSet) ↔ j ∈ l := by
  rw [Keyed.ofList, mem_foldr_insert]
  simp

@[simp] theorem mem_union : j ∈ Keyed.union s t ↔ j ∈ s ∨ j ∈ t := by
  rw [Keyed.union, mem_foldr_insert, Keyed.mem_toList, or_comm]

theorem perm_insert (h : ¬ i ∈ s) : (Keyed.insert i s).toList.Perm (i :: s.toList) := by
  have hnodup : (i :: s.toList).Nodup := List.nodup_cons.2 ⟨h, s.nodup⟩
  refine (List.perm_ext_iff_of_nodup (Keyed.nodup _) hnodup).2 fun j => ?_
  rw [Keyed.mem_toList, mem_insert, List.mem_cons, Keyed.mem_toList]

theorem isEmpty_iff : s.isEmpty = true ↔ ∀ i, ¬ i ∈ s := by
  rw [Keyed.isEmpty, List.isEmpty_iff, List.eq_nil_iff_forall_not_mem]
  exact Iff.rfl

end RegexAutomata.IdSet
