import Shario.FileShape

/-! The rows read as one text: an add splices its character in, a removal takes it out. -/
namespace TextSplices

open CrdtTypes RowLayout FileTree FileSearch CharacterTree FilePlacement FileSafety FileShape

def text (f : SharFile) : List Identity := f.projection.flatten

def valueIn (f : SharFile) (x : Identity) : Char :=
  ((f.characters.lookup x).map CrdtRelation.value).getD rootRelation.value

/-- No child of `y` outranks `x`. -/
def FirstChild (m : Characters) (y x : Identity) : Prop :=
  ∀ e rel, m.lookup e = some rel → rel.parent = y → ¬ sibling e x

section Rows

theorem mapM_total {α β : Type} {k : α → Option β} {g : α → β} :
    ∀ {l : List α}, (∀ a ∈ l, k a = some (g a)) → l.mapM k = some (l.map g) := by
  intro l
  induction l with
  | nil => exact fun _ => rfl
  | cons a l ih =>
    intro h
    rw [List.mapM_cons, h a (by simp), ih fun b hb => h b (by simp [hb])]
    rfl

theorem identities_eq {f : SharFile} (h : Sound f) : f.identitiesWithValues =
    some (f.projection.map fun row => row.map fun x => (x, valueIn f x)) := by
  refine mapM_total fun row hrow => mapM_total fun x hx => ?_
  obtain ⟨rel, hl⟩ := Finmap.mem_iff.mp (h.known x (List.mem_flatten.mpr ⟨row, hrow, hx⟩))
  simp [valueIn, hl]

end Rows

section Adds

variable {f g : SharFile} {c : CRDT} {o : Outcome} {l r : List Identity} {y : Identity}
  {A B : List (List Identity)} {pre post : List Identity}

theorem text_middle (hrows : f.projection = A ++ (pre ++ post) :: B) :
    text f = (A.flatten ++ pre) ++ (post ++ B.flatten) := by
  rw [text, hrows, flatten_middle]

/-- Behind a live parent means right behind it. -/
theorem place_ends (h : Shape f) (hl : Live f.characters y) (hplace : Place f y A pre post B) :
    ∃ u, pre = u ++ [y] := by
  cases hplace with
  | root hrows =>
    obtain ⟨w, C, he⟩ := h.headed
    rw [hrows, List.cons.injEq] at he
    exact ⟨[], by rw [he.1]; rfl⟩
  | live _ _ _ => exact ⟨_, rfl⟩
  | tomb ht _ => exact absurd hl ht.not_live

theorem newest_first {m : Characters} {x : Identity} (h : ∀ e ∈ m, e.1 < x.1) (y : Identity) :
    FirstChild m y x := by
  intro e rel he _ hs
  have hlt := h e (Finmap.mem_iff.mpr ⟨rel, he⟩)
  unfold sibling at hs
  omega

theorem first_stops (h : Sound f) (hfirst : FirstChild f.characters c.relation.parent c.identity)
    (hrows : f.projection = A ++ (pre ++ post) :: B) :
    post.takeWhile (skips f.characters c.relation.parent c.identity) = [] ∧
      post.dropWhile (skips f.characters c.relation.parent c.identity) = post := by
  have hstop : ∀ e ∈ post, skips f.characters c.relation.parent c.identity e = false := by
    intro e he
    have hm : e ∈ f.characters := mem_row_known h hrows (by simp [he])
    obtain ⟨rel, hrel⟩ := Finmap.mem_iff.mp hm
    by_cases hp : rel.parent = c.relation.parent
    · simp [skips, hrel, hp, hfirst e rel hrel hp]
    · simp [skips, hrel, hp]
  have hscan := scan_stops (u := []) (v := post) (by simp)
    fun e he => hstop e (List.mem_of_mem_head? he)
  simpa using hscan

theorem first_added (h : Shape f) (htext : text f = l ++ c.relation.parent :: r)
    (hc : c.identity ∉ f.characters)
    (hfirst : FirstChild f.characters c.relation.parent c.identity) (hd : c.relation.deleted = false)
    (ha : Added f c o g) : (∃ pos, o = .ok (some pos)) ∧ Shape g ∧
      text g = l ++ c.relation.parent :: c.identity :: r ∧
      g.characters = f.characters.insert c.identity c.relation := by
  have hl : Live f.characters c.relation.parent := by
    rw [h.live, ← text, htext]
    simp
  have hg : Shape g := shape_added 0 h hd
    (fun c' he _ ht => by cases he; exact absurd hl ht.not_live) ha
  -- The parent occurs once, so the place splits the text where `htext` does.
  have hsplit : ∀ {A B pre post}, Place f c.relation.parent A pre post B →
      A.flatten ++ pre = l ++ [c.relation.parent] ∧ post ++ B.flatten = r := by
    intro A B pre post hplace
    obtain ⟨u, rfl⟩ := place_ends h hl hplace
    have he := text_middle hplace.rows
    have hn : text f = (A.flatten ++ u) ++ c.relation.parent :: (post ++ B.flatten) := by
      rw [he]
      simp
    obtain ⟨hl', hr'⟩ := split_unique (hn ▸ h.nodup) (hn.symm.trans htext)
    exact ⟨by rw [← hl', List.append_assoc], hr'⟩
  cases ha with
  | orphan hp => exact absurd hl.mem hp
  | duplicate _ hd => exact absurd hd hc
  | unplaced _ _ ha _ hnot =>
    rcases ha with ⟨_, rfl⟩ | ⟨ht, _⟩
    · exact absurd ((h.live _).mp hl) hnot
    · exact absurd hl ht.not_live
  | @char A pre post B _ _ hplace _ =>
    obtain ⟨hl', hr'⟩ := hsplit hplace
    obtain ⟨htake, hdrop⟩ := first_stops h.toSound hfirst hplace.rows
    refine ⟨⟨_, rfl⟩, hg, ?_, rfl⟩
    rw [htake, hdrop, List.append_nil]
    change (A ++ (pre ++ c.identity :: post) :: B).flatten = _
    rw [flatten_middle, hl', List.cons_append, hr', List.append_assoc]
    rfl
  | dropped _ _ _ hrows =>
    obtain ⟨u, B, he⟩ := h.headed
    rw [hrows] at he
    exact absurd he (by simp)
  | @line A pre post B _ _ _ hplace =>
    obtain ⟨hl', hr'⟩ := hsplit hplace
    refine ⟨⟨_, rfl⟩, hg, ?_, rfl⟩
    change (A ++ pre :: (c.identity :: post) :: B).flatten = _
    rw [List.flatten_append, List.flatten_cons, List.flatten_cons, ← List.append_assoc, hl',
      List.cons_append, hr', List.append_assoc]
    rfl
  | lineAbove _ _ ht _ => exact absurd hl ht.not_live

theorem added_silent (h : Shape f) (ha : Added f c o g) (ho : ∀ pos, o ≠ .ok (some pos)) :
    g = f := by
  cases ha with
  | orphan _ => rfl
  | duplicate _ _ => rfl
  | unplaced _ _ _ _ _ => rfl
  | char _ _ _ _ => exact absurd rfl (ho _)
  | dropped _ _ _ hrows =>
    obtain ⟨u, B, he⟩ := h.headed
    rw [hrows] at he
    exact absurd he (by simp)
  | line _ _ _ _ => exact absurd rfl (ho _)
  | lineAbove _ _ _ _ => exact absurd rfl (ho _)

end Adds

section Removes

variable {f g : SharFile} {x : Identity} {o : Outcome} {l r : List Identity}

theorem shape_no_break_on_top (h : Shape f) : ¬ BreakInFirstRow f x := by
  rintro ⟨_, hb, row, hrow, hx⟩
  have hlay := h.layout
  cases hp : f.projection with
  | nil => simp [hp] at hrow
  | cons first B =>
    rw [hp] at hlay hrow
    rw [List.head?_cons, Option.mem_some_iff] at hrow
    exact hlay.1 x (hrow ▸ hx) hb

theorem live_removed (h : Shape f) (hx : x ≠ root) (htext : text f = l ++ x :: r)
    (hr : Removed f x o g) : (∃ pos, o = .ok (some pos)) ∧ Shape g ∧ text g = l ++ r ∧
      ∃ rel, f.characters.lookup x = some rel ∧ g.characters = mark f.characters x rel := by
  have hin : x ∈ f.projection.flatten := by
    rw [← text, htext]
    simp
  have hl : Live f.characters x := (h.live x).mpr hin
  have hg : Shape g := shape_removed h hx hr
  cases hr with
  | unknown hn => exact absurd hl.mem hn
  | again ht => exact absurd hl ht.not_live
  | unplaced _ _ hn => exact absurd hin hn
  | @char rel A u v B hrel _ _ hrows =>
    refine ⟨⟨_, rfl⟩, hg, ?_, rel, hrel, rfl⟩
    have hn : text f = (A.flatten ++ u) ++ x :: (v ++ B.flatten) := text_middle hrows
    obtain ⟨rfl, rfl⟩ := split_unique (hn ▸ h.nodup) (hn.symm.trans htext)
    exact flatten_middle A B u v
  | @line rel A row y w B hrel _ hb hrows hxw =>
    refine ⟨⟨_, rfl⟩, hg, ?_, rel, hrel, rfl⟩
    have hlay := h.layout
    obtain ⟨u, v, huv⟩ := List.append_of_mem hxw
    have hrows' : f.projection = (A ++ [row]) ++ (u ++ x :: v) :: B := by
      rw [hrows, huv]
      simp
    obtain ⟨rfl, _⟩ := break_starts_row (hrows' ▸ hlay) ((breaks_iff hrel).mpr hb)
    obtain ⟨rfl, rfl⟩ := List.cons.inj huv
    have hn : text f = (A.flatten ++ row) ++ y :: (w ++ B.flatten) := by
      rw [text_middle hrows']
      simp
    obtain ⟨rfl, rfl⟩ := split_unique (hn ▸ h.nodup) (hn.symm.trans htext)
    exact flatten_middle A B row w

end Removes

end TextSplices
