/-! Finite sets and tables kept as lists in ascending order of a key. Two of them with the same
elements are the same value, so that sets of state ids are compared as they stand. -/
namespace RegexAutomata
variable {α : Type}

structure Keyed (key : α → Nat) where
  toList : List α
  ascending : toList.Pairwise (fun a b => key a < key b)

abbrev IdSet := Keyed (fun id : Nat => id)

namespace Keyed
variable {key : α → Nat}

/-- Puts `a` where its key belongs. An element with the same key gives way to it. -/
def place (key : α → Nat) (a : α) : List α → List α
  | [] => [a]
  | b :: l =>
    if key a < key b then a :: b :: l
    else if key a = key b then a :: l
    else b :: place key a l

theorem mem_of_mem_place {a x : α} {l : List α} (h : x ∈ place key a l) : x = a ∨ x ∈ l := by
  induction l with
  | nil => simpa [place] using h
  | cons b l ih => grind [place]

theorem place_ascending (a : α) {l : List α} (h : l.Pairwise (fun x y => key x < key y)) :
    (place key a l).Pairwise (fun x y => key x < key y) := by
  induction l with
  | nil => simp [place]
  | cons b l ih =>
    obtain ⟨hb, hl⟩ := List.pairwise_cons.1 h
    simp only [place]
    split
    · rename_i hab
      refine List.pairwise_cons.2 ⟨fun x hx => ?_, h⟩
      rcases List.mem_cons.1 hx with rfl | hx
      · exact hab
      · exact Nat.lt_trans hab (hb x hx)
    · split
      · rename_i hab
        exact List.pairwise_cons.2 ⟨fun x hx => hab ▸ hb x hx, hl⟩
      · rename_i hab hne
        refine List.pairwise_cons.2 ⟨fun x hx => ?_, ih hl⟩
        rcases mem_of_mem_place hx with rfl | hx
        · omega
        · exact hb x hx

instance [DecidableEq α] : DecidableEq (Keyed key) := fun s t =>
  decidable_of_iff (s.toList = t.toList) ⟨fun h => by cases s; cases t; cases h; rfl, fun h => h ▸ rfl⟩

instance : Membership α (Keyed key) := ⟨fun s a => a ∈ s.toList⟩

instance [DecidableEq α] (a : α) (s : Keyed key) : Decidable (a ∈ s) :=
  inferInstanceAs (Decidable (a ∈ s.toList))

def empty : Keyed key := ⟨[], .nil⟩

def size (s : Keyed key) : Nat := s.toList.length

def isEmpty (s : Keyed key) : Bool := s.toList.isEmpty

def insert (a : α) (s : Keyed key) : Keyed key :=
  ⟨place key a s.toList, place_ascending a s.ascending⟩

/-- Of two elements with the same key the earlier one stays. -/
def ofList (l : List α) : Keyed key := l.foldr insert empty

/-- All elements of both; where keys collide, the element of `t` stays. -/
def union (s t : Keyed key) : Keyed key := t.toList.foldr insert s

def filter (p : α → Bool) (s : Keyed key) : Keyed key :=
  ⟨s.toList.filter p, s.ascending.filter p⟩

def find? (k : Nat) (s : Keyed key) : Option α := s.toList.find? (fun a => key a == k)

def erase (k : Nat) (s : Keyed key) : Keyed key := s.filter (fun a => key a != k)

def modify (k : Nat) (f : α → α) (key_f : ∀ a, key (f a) = key a) (s : Keyed key) : Keyed key :=
  ⟨s.toList.map (fun a => if key a = k then f a else a), by
    have hkey : ∀ a, key (if key a = k then f a else a) = key a := by grind
    simpa [List.pairwise_map, hkey] using s.ascending⟩

theorem toList_inj {s t : Keyed key} : s.toList = t.toList ↔ s = t :=
  ⟨fun h => by cases s; cases t; cases h; rfl, fun h => h ▸ rfl⟩

end Keyed
end RegexAutomata
