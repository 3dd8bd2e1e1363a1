import RegexAutomata.Proofs.Expression.Faultless

/-! A reader of faultless texts. It goes from left to right and keeps what it has read as drafts:
one line for every open group, and the last factor if the group has one so far. -/
namespace RegexAutomata.Expression
variable {A : Alphabet} {b : Bool} {c : Char} {n : Nat} {t : List Char}

def Draft.Proper (A : Alphabet) {r : Rank} {b : Bool} (d : Draft r b) : Prop :=
  d.Over (fun c => A.contains c = true) ∧ d.StarsApart

structure Line where
  sum? : Option (Draft .sum true)
  product? : Option (Draft .product true)

namespace Line
variable {l : Line} {f : Draft .factor b}

def product (l : Line) (f : Draft .factor b) : Draft .product b :=
  match l.product? with
  | none => .single f
  | some t => .concat t f

def sum (l : Line) (f : Draft .factor b) : Draft .sum b :=
  match l.sum? with
  | none => .alone (l.product f)
  | some e => .union e (l.product f)

def text (l : Line) : List Char :=
  l.sum?.elim [] (fun e => e.text ++ ['+']) ++ l.product?.elim [] (fun t => t.text ++ ['.'])

theorem text_sum (l : Line) (f : Draft .factor b) : (l.sum f).text = l.text ++ f.text := by
  obtain ⟨sum?, product?⟩ := l
  cases sum? <;> cases product? <;> simp [sum, product, text, Draft.text]

structure Proper (A : Alphabet) (l : Line) : Prop where
  sum : ∀ e ∈ l.sum?, e.Proper A
  product : ∀ t ∈ l.product?, t.Proper A

theorem Proper.empty : Proper A ⟨none, none⟩ := ⟨nofun, nofun⟩

theorem Proper.close_product (hl : l.Proper A) (hf : f.Proper A) : (l.product f).Proper A := by
  obtain ⟨sum?, product?⟩ := l
  cases product? with
  | none => exact hf
  | some t =>
    obtain ⟨ht, ht'⟩ := hl.product t rfl
    exact ⟨⟨ht, hf.1⟩, ⟨ht', hf.2⟩⟩

theorem Proper.close_sum (hl : l.Proper A) (hf : f.Proper A) : (l.sum f).Proper A := by
  have hp := hl.close_product hf
  obtain ⟨sum?, product?⟩ := l
  cases sum? with
  | none => exact hp
  | some e =>
    obtain ⟨he, he'⟩ := hl.sum e rfl
    exact ⟨⟨he, hp.1⟩, ⟨he', hp.2⟩⟩

end Line

/-- A group that is open: the line it stands in, and the factor in front of it if a star stands
between the two. -/
structure Frame where
  line : Line
  starred? : Option (Draft .factor true)

namespace Frame
variable {e : Draft .sum b} {fr : Frame}

def close (fr : Frame) (e : Draft .sum b) : Draft .factor true :=
  match fr.starred? with
  | none => .plain (.group e)
  | some f => .beside f e

def text (fr : Frame) : List Char :=
  fr.line.text ++ (fr.starred?.elim [] (fun f => f.text ++ ['*']) ++ ['('])

theorem text_close (fr : Frame) (e : Draft .sum b) :
    fr.line.text ++ (fr.close e).text = fr.text ++ (e.text ++ [')']) := by
  obtain ⟨line, starred?⟩ := fr
  cases starred? <;> simp [close, text, Draft.text]

structure Proper (A : Alphabet) (fr : Frame) : Prop where
  line : fr.line.Proper A
  starred : ∀ f ∈ fr.starred?, f.endsInStar = false ∧ f.Proper A

theorem Proper.close_group (hfr : fr.Proper A) (he : e.Proper A) : (fr.close e).Proper A := by
  obtain ⟨line, starred?⟩ := fr
  cases starred? with
  | none => exact he
  | some f =>
    obtain ⟨hend, hf⟩ := hfr.starred f rfl
    exact ⟨⟨hf.1, he.1⟩, ⟨hend, hf.2, he.2⟩⟩

end Frame

/-- The open groups, innermost first, and the line and the last factor of the innermost one. -/
structure Reader where
  frames : List Frame
  line : Line
  factor? : Option (Draft .factor true)

namespace Reader
variable {s s' : Reader} {f : Draft .factor true}

def framesText : List Frame → List Char
  | [] => []
  | fr :: rest => framesText rest ++ fr.text

def text (s : Reader) : List Char :=
  framesText s.frames ++ (s.line.text ++ s.factor?.elim [] Draft.text)

def before? (s : Reader) : Option Char :=
  match s.factor?, s.line.product?, s.line.sum?, s.frames with
  | some f, _, _, _ => f.ending?
  | none, some _, _, _ => some '.'
  | none, none, some _, _ => some '+'
  | none, none, none, _ :: _ => some '('
  | none, none, none, [] => none

structure Proper (A : Alphabet) (s : Reader) : Prop where
  frames : ∀ fr ∈ s.frames, fr.Proper A
  line : s.line.Proper A
  factor : ∀ f ∈ s.factor?, f.Proper A

theorem before?_awaiting (h : s.factor? = none) : ∀ c ∈ s.before?, c ∈ ['(', '+', '.'] := by
  obtain ⟨frames, ⟨sum?, product?⟩, factor?⟩ := s
  obtain rfl : factor? = none := h
  intro c hc
  cases product? <;> cases sum? <;> cases frames <;> cases hc <;> decide

theorem before?_factor (hs : s.Proper A) (h : s.factor? = some f) :
    ∃ c, s.before? = some c ∧ (A.contains c = true ∨ c = ')' ∨ c = '*') ∧
      (c = '*' ↔ f.endsInStar = true) := by
  have hf := (hs.factor f h).1
  have hbefore : s.before? = f.ending? := by simp only [before?, h]
  obtain ⟨c, hc, hor⟩ := f.ending?_eq_some hf
  refine ⟨c, hbefore.trans hc, hor, ?_⟩
  rw [← f.ending?_of_endsInStar hf, hc, Option.some_inj]

structure Extends (A : Alphabet) (s : Reader) (c : Char) (s' : Reader) : Prop where
  proper : s'.Proper A
  text : s'.text = s.text ++ [c]
  before : s'.before? = some c

theorem extends_operand (hs : s.Proper A) (hf : s.factor? = none) (hc : A.contains c = true) :
    Extends A s c ⟨s.frames, s.line, some (.plain (.operand c))⟩ where
  proper := ⟨hs.frames, hs.line, fun f hf => by cases hf; exact ⟨hc, trivial⟩⟩
  text := by simp [text, hf, Draft.text]
  before := rfl

/-- A group begins where a factor is missing. -/
theorem extends_opening (hs : s.Proper A) (hf : s.factor? = none) :
    Extends A s '(' ⟨⟨s.line, none⟩ :: s.frames, ⟨none, none⟩, none⟩ where
  proper := by
    refine ⟨List.forall_mem_cons.2 ⟨⟨hs.line, nofun⟩, hs.frames⟩, .empty, nofun⟩
  text := by simp [text, framesText, Frame.text, Line.text, hf]
  before := rfl

/-- Or it begins right behind a star, which is then taken off the last factor. -/
theorem extends_opening_star (hs : s.Proper A) (hf : s.factor? = some (.star f)) :
    Extends A s '(' ⟨⟨s.line, some f⟩ :: s.frames, ⟨none, none⟩, none⟩ where
  proper := by
    obtain ⟨hover, hend, hstars⟩ := hs.factor _ hf
    refine ⟨List.forall_mem_cons.2 ⟨⟨hs.line, fun g hg => ?_⟩, hs.frames⟩, .empty, nofun⟩
    obtain rfl : f = g := Option.some.inj hg
    exact ⟨hend, hover, hstars⟩
  text := by simp [text, framesText, Frame.text, Line.text, hf, Draft.text]
  before := rfl

theorem extends_closing {g : Draft .factor b} {fr : Frame} {rest : List Frame} (hs : s.Proper A)
    (hframes : s.frames = fr :: rest) (hg : g.Proper A)
    (htext : s.factor?.elim [] Draft.text = g.text) :
    Extends A s ')' ⟨rest, fr.line, some (fr.close (s.line.sum g))⟩ where
  proper := by
    have hfr := hs.frames
    rw [hframes, List.forall_mem_cons] at hfr
    refine ⟨hfr.2, hfr.1.line, fun f hf => ?_⟩
    obtain rfl : fr.close (s.line.sum g) = f := Option.some.inj hf
    exact hfr.1.close_group (hs.line.close_sum hg)
  text := by
    have hclose := fr.text_close (s.line.sum g)
    rw [Line.text_sum] at hclose
    simp [text, framesText, hframes, htext, hclose]
  before := by
    obtain ⟨line, starred?⟩ := fr
    cases starred? <;> rfl

theorem extends_star (hs : s.Proper A) (hf : s.factor? = some f) (hend : f.endsInStar = false) :
    Extends A s '*' ⟨s.frames, s.line, some (.star f)⟩ where
  proper := by
    obtain ⟨hover, hstars⟩ := hs.factor _ hf
    refine ⟨hs.frames, hs.line, fun g hg => ?_⟩
    obtain rfl : Draft.star f = g := Option.some.inj hg
    exact ⟨hover, hend, hstars⟩
  text := by simp [text, hf, Draft.text]
  before := rfl

theorem extends_plus (hs : s.Proper A) (hf : s.factor? = some f) :
    Extends A s '+' ⟨s.frames, ⟨some (s.line.sum f), none⟩, none⟩ where
  proper := by
    refine ⟨hs.frames, ⟨fun e he => ?_, nofun⟩, nofun⟩
    obtain rfl : s.line.sum f = e := Option.some.inj he
    exact hs.line.close_sum (hs.factor f hf)
  text := by simp [text, Line.text, hf, Line.text_sum]
  before := rfl

theorem extends_dot (hs : s.Proper A) (hf : s.factor? = some f) :
    Extends A s '.' ⟨s.frames, ⟨s.line.sum?, some (s.line.product f)⟩, none⟩ where
  proper := by
    refine ⟨hs.frames, ⟨hs.line.sum, fun t ht => ?_⟩, nofun⟩
    obtain rfl : s.line.product f = t := Option.some.inj ht
    exact hs.line.close_product (hs.factor f hf)
  text := by
    obtain ⟨frames, ⟨sum?, product?⟩, factor?⟩ := s
    obtain rfl : factor? = some f := hf
    cases product? <;> simp [text, Line.text, Line.product, Draft.text]
  before := rfl

/-- An operand can only stand where a factor is missing, for it is joined to all that ends one. -/
theorem factor?_eq_none (hs : s.Proper A) (hc : A.contains c = true)
    (hjoined : ∀ p ∈ s.before?, joined A p c = false) : s.factor? = none := by
  cases hf : s.factor? with
  | none => rfl
  | some f =>
    obtain ⟨p, hp, hor, _⟩ := before?_factor hs hf
    have hj := hjoined p hp
    obtain hor | hor | hor := hor <;> simp [joined, hor, hc] at hj

/-- A group can stand right behind a star, too. -/
theorem exists_star (hs : s.Proper A) (hf : s.factor? = some f)
    (hjoined : ∀ p ∈ s.before?, joined A p '(' = false) : ∃ g, f = .star g := by
  obtain ⟨p, hp, hor, hend⟩ := before?_factor hs hf
  have hj := hjoined p hp
  have hstar : p = '*' := by
    obtain hor | hor | hor := hor
    · simp [joined, hor] at hj
    · simp [joined, hor] at hj
    · exact hor
  cases f with
  | star g => exact ⟨g, rfl⟩
  | plain a => cases hend.1 hstar
  | beside f e => cases hend.1 hstar

/-- An operator can only stand behind a factor. -/
theorem exists_factor (hn : s.before? = none → n = 0) (hzero : n ≠ 0)
    (hawaits : ∀ p ∈ s.before?, p ∉ ['(', '+', '.']) : ∃ f, s.factor? = some f := by
  cases hf : s.factor? with
  | some f => exact ⟨f, rfl⟩
  | none =>
    cases hb : s.before? with
    | none => exact absurd (hn hb) hzero
    | some p => exact absurd (before?_awaiting hf p hb) (hawaits p hb)

/-- A place without a fault, whose character is not joined to the one in front, can be read. -/
theorem exists_extends {last : Bool} (hs : s.Proper A) (hn : s.before? = none → n = 0)
    (hfault : Place.fault? A ⟨n, s.frames.length, s.before?, c, last⟩ = none)
    (hjoined : ∀ p ∈ s.before?, joined A p c = false) :
    ∃ s', Extends A s c s' ∧
      s'.frames.length = Place.depthAfter ⟨n, s.frames.length, s.before?, c, last⟩ := by
  obtain ⟨hallows, hdepth, hoperator⟩ := Place.fault?_eq_none_iff.1 hfault
  cases hr : role c with
  | operand =>
    have hc : A.contains c = true := Alphabet.contains_of_allows hallows hr
    obtain ⟨hopen, hclose⟩ := ne_parenthesis_of_operand hr
    refine ⟨_, extends_operand hs (factor?_eq_none hs hc hjoined) hc, ?_⟩
    simp [Place.depthAfter, hopen, hclose]
  | opening =>
    obtain rfl := role_eq_opening_iff.1 hr
    cases hf : s.factor? with
    | none => exact ⟨_, extends_opening hs hf, rfl⟩
    | some f =>
      obtain ⟨g, rfl⟩ := exists_star hs hf hjoined
      exact ⟨_, extends_opening_star hs hf, rfl⟩
  | closing =>
    obtain rfl := role_eq_closing_iff.1 hr
    cases hframes : s.frames with
    | nil => exact absurd (by simp [hframes]) (hdepth rfl)
    | cons fr rest =>
      cases hf : s.factor? with
      | none =>
        refine ⟨_, extends_closing hs hframes (g := .blank) ⟨trivial, trivial⟩ ?_, rfl⟩
        rw [hf]
        rfl
      | some f =>
        refine ⟨_, extends_closing hs hframes (hs.factor f hf) ?_, rfl⟩
        rw [hf]
        rfl
  | operator o =>
    obtain ⟨hawaits, hstar, hzero, _⟩ := hoperator (by rw [hr]; rfl)
    obtain ⟨f, hf⟩ := exists_factor hn hzero (Place.awaitsOperand_eq_none_iff.1 hawaits)
    obtain rfl := role_eq_operator_iff.1 hr
    cases o with
    | union => exact ⟨_, extends_plus hs hf, rfl⟩
    | concat => exact ⟨_, extends_dot hs hf, rfl⟩
    | star =>
      obtain ⟨p, hp, _, hend⟩ := before?_factor hs hf
      have hne : p ≠ '*' := fun h => hstar rfl (hp.trans (congrArg some h))
      exact ⟨_, extends_star hs hf (Bool.eq_false_iff.2 fun h => hne (hend.2 h)), rfl⟩

/-- Reading on to the end of a faultless text comes to the draft of all that was read. -/
theorem exists_draft (hs : s.Proper A) (hn : s.before? = none → n = 0)
    (h : faultFrom? A n s.frames.length s.before? t = none)
    (hspaced : Spaced A (s.before?.toList ++ t))
    (hend : t = [] → s.factor? = none → s.frames ≠ []) :
    ∃ d : Draft .sum true, d.Proper A ∧ d.text = s.text ++ t := by
  induction t generalizing s n with
  | nil =>
    have hframes : s.frames = [] := by
      by_contra hne
      have hlength : s.frames.length ≠ 0 := mt List.length_eq_zero_iff.1 hne
      simp [faultFrom?, hlength] at h
    cases hf : s.factor? with
    | none => exact absurd hframes (hend rfl hf)
    | some f =>
      refine ⟨s.line.sum f, hs.line.close_sum (hs.factor f hf), ?_⟩
      simp [text, hframes, framesText, hf, Line.text_sum]
  | cons c t ih =>
    obtain ⟨hfault, hrest⟩ := faultFrom?_cons_eq_none.1 h
    have hjoined : ∀ p ∈ s.before?, joined A p c = false := by
      intro p hp
      rw [Option.mem_def.1 hp] at hspaced
      exact (List.isChain_cons_cons.1 hspaced).1
    obtain ⟨s', hs', hlength⟩ := exists_extends hs hn hfault hjoined
    have hspaced' : Spaced A (s'.before?.toList ++ t) := by
      rw [hs'.before]
      exact hspaced.right_of_append
    rw [← hlength, ← hs'.before] at hrest
    -- a text does not end in a binary operator, and an opening parenthesis leaves its group open
    have hend' : t = [] → s'.factor? = none → s'.frames ≠ [] := by
      intro ht hf hframes
      have hc := before?_awaiting hf c hs'.before
      obtain ⟨_, _, hoperator⟩ := Place.fault?_eq_none_iff.1 hfault
      simp only [List.mem_cons, List.not_mem_nil, or_false] at hc
      obtain rfl | rfl | rfl := hc
      · simp [hframes, Place.depthAfter] at hlength
      · exact absurd ((hoperator rfl).2.2.2 (List.isEmpty_iff.2 ht)) (show '+' ≠ '*' by decide)
      · exact absurd ((hoperator rfl).2.2.2 (List.isEmpty_iff.2 ht)) (show '.' ≠ '*' by decide)
    obtain ⟨d, hd, htext⟩ := ih hs'.proper (by simp [hs'.before]) hrest hspaced' hend'
    exact ⟨d, hd, by rw [htext, hs'.text, List.append_assoc, List.singleton_append]⟩

end Reader

/-- A faultless text in which every dot is written is the text of a draft. -/
theorem exists_draft_of_fault?_eq_none {t : List Char} (h : fault? A t = none) (ht : Spaced A t) :
    ∃ d : Draft .sum true, d.Proper A ∧ d.text = t := by
  cases t with
  | nil => cases h
  | cons c t =>
    exact Reader.exists_draft (s := ⟨[], ⟨none, none⟩, none⟩) ⟨nofun, .empty, nofun⟩ (fun _ => rfl)
      h ht nofun

theorem fault?_eq_none_iff {t : List Char} (ht : Spaced A t) :
    fault? A t = none ↔ ∃ d : Draft .sum true, d.Proper A ∧ d.text = t := by
  constructor
  · intro h
    exact exists_draft_of_fault?_eq_none h ht
  · intro ⟨d, hd, htext⟩
    rw [← htext]
    exact d.fault?_text hd.1 hd.2

end RegexAutomata.Expression
