import Shario.DocMirror
import Shario.FlatClient
import Shario.Sessions

/-! The benchmark of `bench/trace-runner.js`: one client that plays a trace over a socket and
one queue that handles its messages. Messages and confirmations may be under way for any time,
and the server runs every message as a task of its own, so it may handle them in any order. -/
namespace SocketBench

open CrdtTypes FileTree CharacterTree FilePlacement FileSafety FileShape DirectoryTree ShareQueue
  TreeCalls QueueSteps IdeSteps QueueRuns TextSplices Sessions DocMirror
open BenchMirror (document Quiet Mirroring Matched Mirrors PlainBreaks InRange isInsert confirmation
  confirmed shownIn)
open FlatClient (insertAfter deleteFrom insertAfter_middle deleteFrom_middle)
open PeerSession (Edit)

structure Socket where
  mirror : Mirror
  /-- What the client has emitted and the queue has not handled. -/
  outbox : List Edit
  queue : SharQueue
  /-- The `ide-add-confirmed` that the client has not received. -/
  inbox : List IdeAddConfirmed

inductive Event where
  | edit (e : BenchMirror.Edit)
  | serve (i : ℕ)
  | hear

def newlyConfirmed (q q' : SharQueue) : List IdeAddConfirmed :=
  (q'.fired.drop q.fired.length).filterMap confirmedOf

def Socket.step (path : PathBuf) (s : Socket) : Event → Option Socket
  | .edit e => do
    let (mirror, sent) ← s.mirror.apply path e
    some { s with mirror, outbox := s.outbox ++ sent }
  | .serve i => do
    -- the task that runs next need not be that of the oldest message
    let message ← s.outbox[i]?
    let queue ← message.call.apply s.queue
    some ⟨s.mirror, s.outbox.eraseIdx i, queue, s.inbox ++ newlyConfirmed s.queue queue⟩
  | .hear =>
    match s.inbox with
    | [] => none
    | c :: inbox =>
      let (mirror, sent) := confirmAdd path s.mirror c.tag c.id c.peer
      some ⟨mirror, s.outbox ++ sent, s.queue, inbox⟩

def connect (q : SharQueue) : Socket := ⟨createDocMirror, [], q, []⟩

def played (events : List Event) : List BenchMirror.Edit :=
  events.filterMap fun e => match e with
    | .edit e => some e
    | _ => none

/-- The server handles the messages in the order in which they were sent. -/
def InOrder (events : List Event) : Prop := ∀ i, .serve i ∈ events → i = 0

/-- The characters that the edits insert, in the order of their tags. -/
def written (done : List BenchMirror.Edit) : List Char :=
  done.filterMap fun e => match e with
    | .insert _ value => some value
    | .delete _ => none

section Confirms

variable {q q' : SharQueue} {op : IdeAdd} {n : ℕ}

theorem confirmation_eq (cb : Callback) :
    confirmation cb = (confirmedOf cb).map fun c => (c.id, c.peer) := by
  cases cb <;> rfl

theorem addIde_confirms (hs : AllFiles Sound q.tree) (hn : tick q.counter = some n)
    (h : q.addIdeOperation op = some q') :
    newlyConfirmed q q' = [⟨op.tag, n, q.peer⟩] ∧ q'.peer = q.peer := by
  have hkeep : ∀ {p p' : SharQueue} {i : IdeAdd}, AllFiles Sound p.tree → RetriedIde p i p' →
      AllFiles Sound p'.tree ∧ p'.fired.filterMap confirmedOf = p.fired.filterMap confirmedOf ∧
        p'.peer = p.peer := by
    intro p p' i hp hr
    have hsound := retriedIde_keeps (P := AllFiles Sound) (fun _ _ _ _ _ hs ha => ha.sound hs) hp hr
    cases hr with
    | held hh => cases hh <;> exact ⟨hsound, rfl, rfl⟩
    | landed _ =>
      refine ⟨hsound, ?_, queueIde_peer _ _⟩
      rw [fire_fired, NewIdentities.queueIde_fired, withTree_fired, List.filterMap_append]
      exact List.append_nil _
  have hfirst : ∀ m, tick q.counter = some m → AllFiles Sound (enlisted q op m).tree ∧
      (enlisted q op m).fired.filterMap confirmedOf =
        q.fired.filterMap confirmedOf ++ [⟨op.tag, n, q.peer⟩] ∧ (enlisted q op m).peer = q.peer := by
    intro m hm
    rw [hn, Option.some.injEq] at hm
    subst hm
    refine ⟨by rw [enlisted_tree]; exact hs, ?_, enlisted_peer _ _ _⟩
    rw [NewIdentities.enlisted_fired, List.filterMap_append]
    rfl
  have hJ := addIde_invariant (J := fun p => AllFiles Sound p.tree ∧ p.fired.filterMap confirmedOf =
      q.fired.filterMap confirmedOf ++ [⟨op.tag, n, q.peer⟩] ∧ p.peer = q.peer)
    (fun _ hp => hp.1) (fun p a b hp => ⟨hp.1, ?_, hp.2.2⟩) ?_ ?_ ?_ hs h
  · obtain ⟨l, hl⟩ := NewIdentities.confirms_first hs hn h
    refine ⟨?_, hJ.1.2.2⟩
    have he := hJ.1.2.1
    rw [hl, List.filterMap_append] at he
    rw [newlyConfirmed, hl, List.drop_left]
    exact List.append_cancel_left he
  · rw [fire_fired, List.filterMap_append, hp.2.1]
    exact List.append_nil _
  · intro m p hm hh
    obtain ⟨hsound, hfired, hpeer⟩ := hfirst m hm
    obtain ⟨hs', he, hp⟩ := hkeep hsound (.held hh)
    exact ⟨hs', he.trans hfired, hp.trans hpeer⟩
  · intro m x parent pos t hm hl
    obtain ⟨hsound, hfired, hpeer⟩ := hfirst m hm
    rw [queueIde_tree, NewIdentities.queueIde_fired, queueIde_peer]
    exact ⟨hl.added.sound hsound, hfired, hpeer⟩
  · rintro p i p₁ p₂ ⟨hp, hfired, hpeer⟩ hpop _ hr
    obtain ⟨rest, _, rfl⟩ := popIde_eq hpop
    obtain ⟨hs', he, hp'⟩ := hkeep (p := { p with ideWorklist := rest }) hp hr
    exact ⟨hs', he.trans hfired, hp'.trans hpeer⟩

theorem confirmed_of_newly {c : IdeAddConfirmed} (h : newlyConfirmed q q' = [c]) :
    confirmed q q' = some (c.id, c.peer) := by
  have he : confirmation = fun cb => (confirmedOf cb).map fun c => (c.id, c.peer) :=
    funext confirmation_eq
  rw [confirmed, he, ← List.map_filterMap]
  rw [newlyConfirmed] at h
  rw [h]
  rfl

theorem removeIde_confirms {op : Remove} (hs : AllFiles Sound q.tree)
    (h : q.removeIdeOperation op = some q') : newlyConfirmed q q' = [] ∧ q'.peer = q.peer := by
  have hlog : ∀ {l}, q'.fired = q.fired ++ l → newlyConfirmed q q' = l.filterMap confirmedOf := by
    intro l hl
    rw [newlyConfirmed, hl, List.drop_left]
  rcases removeIde_cases hs op with ⟨q₁, he, hr⟩ | ⟨hnone, _⟩
  · rw [h, Option.some.injEq] at he
    subst he
    cases hr with
    | rootRemove _ => exact ⟨hlog (List.append_nil _).symm, rfl⟩
    | fallen _ _ => exact ⟨hlog rfl, rfl⟩
    | again _ _ => exact ⟨hlog (List.append_nil _).symm, rfl⟩
    | early _ _ => exact ⟨hlog (List.append_nil _).symm, rfl⟩
  · rw [h] at hnone
    exact absurd hnone (by simp)

end Confirms

/-- The parent that an add means, when its client is the only writer. -/
def meantBy (peer : ℕ) (op : IdeAdd) : Identity :=
  match op.parentId, op.parentPeer, op.parentTag with
  | some id, some p, _ => (id, p)
  | _, _, some tag => (tag + 1, peer)
  | _, _, none => root

/-- One message, on the document as a list. -/
def processed (peer : ℕ) (doc : List Identity) : Edit → Option (List Identity)
  | .add op => insertAfter doc (meantBy peer op) (op.tag + 1, peer)
  | .remove op => if op.identity = root then none else deleteFrom doc op.identity

/-- A message that the mirror may have emitted. -/
def Genuine (path : PathBuf) (letters : List Char) : Edit → Prop
  | .add op => ∃ parent row value, op = emitAdd path parent row value op.tag ∧
      letters[op.tag]? = some value
  | .remove op => op.filePath = path

/-- The queue has taken the adds under all tags up to its counter, and no other. -/
structure Serving (path : PathBuf) (ref : FileRef) (peer : ℕ) (letters : List Char) (q : SharQueue)
    (f : SharFile) : Prop where
  routed : q.tree.findFile path = some ref
  sound : AllFiles Sound q.tree
  quiet : Quiet q
  owner : q.peer = peer
  tags : ∀ tag < q.counter, q.tagIdentities.lookup tag = some (tag + 1, peer)
  file : q.tree.getFile ref = some f
  shape : Shape f
  below : ∀ x ∈ f.characters, x.1 ≤ q.counter
  taken : ∀ tag < q.counter, (tag + 1, peer) ∈ f.characters
  values : ∀ x rel, f.characters.lookup x = some rel →
    x = root ∨ ∃ tag, x = (tag + 1, peer) ∧ letters[tag]? = some rel.value

section Serving

variable {path : PathBuf} {ref : FileRef} {peer : ℕ} {letters : List Char} {q : SharQueue}
  {f : SharFile} {doc : List Identity}

@[simp] theorem meantBy_emitAdd (parent : Name) (row : ℕ) (value : Char) (tag : ℕ) :
    meantBy peer (emitAdd path parent row value tag) = parent.identity peer := by
  cases parent <;> rfl

@[simp] theorem emitAdd_tag (parent : Name) (row : ℕ) (value : Char) (tag : ℕ) :
    (emitAdd path parent row value tag).tag = tag := by
  cases parent <;> rfl

@[simp] theorem emitAdd_path (parent : Name) (row : ℕ) (value : Char) (tag : ℕ) :
    (emitAdd path parent row value tag).filePath = path := by
  cases parent <;> rfl

@[simp] theorem emitAdd_val (parent : Name) (row : ℕ) (value : Char) (tag : ℕ) :
    (emitAdd path parent row value tag).val = value := by
  cases parent <;> rfl

theorem issued_shown (q : SharQueue) (op : IdeAdd) (t : SharDirectory) {cb : Callback}
    {item : NetworkOp} (hcb : PeerSession.broadcast cb = some item) :
    PeerSession.issued (shownIn q op t cb) = PeerSession.issued q ++ [item] := by
  have hconfirm : PeerSession.issued (withTree (q.confirmIde op.tag (q.counter + 1)) t) =
      PeerSession.issued q := (PeerSession.issued_fire _ _).trans (List.append_nil _)
  rw [shownIn, PeerSession.issued_fire, hconfirm, hcb]
  rfl

theorem served_add (h : Serving path ref peer letters q f) {op : IdeAdd}
    (hg : Genuine path letters (.add op)) (htag : op.tag = q.counter)
    (hroom : q.counter + 1 < 2 ^ 32) (hp : processed peer (text f) (.add op) = some doc) :
    ∃ q' g, q.addIdeOperation op = some q' ∧ Serving path ref peer letters q' g ∧ text g = doc ∧
      newlyConfirmed q q' = [⟨op.tag, op.tag + 1, peer⟩] ∧ q'.counter = q.counter + 1 ∧
      ∃ item, PeerSession.issued q' = PeerSession.issued q ++ [item] := by
  obtain ⟨parent, row, value, hop, hv⟩ := hg
  have hnodup : (text f).Nodup := h.shape.nodup
  have hmem : parent.identity peer ∈ text f := by
    by_contra hn
    rw [processed, hop, meantBy_emitAdd, FlatClient.insertAfter_unknown hn] at hp
    exact absurd hp (by simp)
  obtain ⟨l, r, htext⟩ := List.append_of_mem hmem
  have hknown : parent.identity peer ∈ f.characters := by
    refine ((h.shape.live _).mpr ?_).mem
    rw [← text]
    exact hmem
  obtain rfl : doc = l ++ parent.identity peer :: (op.tag + 1, peer) :: r := by
    have hmeant : meantBy peer op = parent.identity peer := by rw [hop, meantBy_emitAdd]
    rw [processed, hmeant, htext, insertAfter_middle (htext ▸ hnodup), Option.some.injEq] at hp
    exact hp.symm
  have hval : op.val = value := by rw [hop, emitAdd_val]
  have hpath : op.filePath = path := by rw [hop, emitAdd_path]
  have hparent : (q.confirmIde op.tag (q.counter + 1)).ideParent op =
      some (parent.identity peer) := by
    cases parent with
    | known id p => exact (congrArg _ hop).trans rfl
    | pending tag =>
      have hle : tag + 1 ≤ q.counter := h.below _ hknown
      have hne : tag ≠ op.tag := by omega
      have hl : (q.tagIdentities.insert op.tag (q.counter + 1, q.peer)).lookup tag =
          some (tag + 1, peer) := by
        rw [Finmap.lookup_insert_of_ne _ hne]
        exact h.tags tag (by omega)
      exact (congrArg _ hop).trans hl
  have hadded : ∀ {o g}, Added f (ideCrdt op (q.counter + 1, q.peer) (parent.identity peer)) o g →
      (∃ pos, o = .ok (some pos)) ∧ Shape g ∧
        text g = l ++ parent.identity peer :: (op.tag + 1, peer) :: r ∧
        g.characters = f.characters.insert (q.counter + 1, peer)
          (.new value (parent.identity peer).1 (parent.identity peer).2) := by
    intro o g ha
    have hnew : ∀ x ∈ f.characters, x.1 < q.counter + 1 := fun x hx =>
      Nat.lt_succ_of_le (h.below x hx)
    have hx : (q.counter + 1, q.peer) = (op.tag + 1, peer) := by rw [htag, h.owner]
    have hfirst := first_added (c := ideCrdt op (q.counter + 1, q.peer) (parent.identity peer))
      h.shape htext (fun hm => lt_irrefl _ (hnew _ hm)) (newest_first hnew _) rfl ha
    obtain ⟨hpos, hshape, htext', hchars⟩ := hfirst
    refine ⟨hpos, hshape, ?_, ?_⟩
    · rw [htext', ← hx]
      rfl
    · rw [hchars, ← h.owner, ← hval]
      rfl
  obtain ⟨t, pos, ht, he⟩ := BenchMirror.quiet_lands h.quiet h.sound hroom op hparent
    fun o t ha => by
      obtain ⟨g, hg, _⟩ := routed_added (hpath ▸ h.routed) h.file ha
      exact (hadded hg).1
  obtain ⟨g, hg, hgf⟩ := routed_added (hpath ▸ h.routed) h.file ht
  obtain ⟨_, hshape, htext', hchars⟩ := hadded hg
  refine ⟨_, g, he, ⟨(ht.routes.findFile path).trans h.routed, ht.sound h.sound,
    BenchMirror.quiet_shown h.quiet _ _ _, h.owner, fun tag hlt => ?_, hgf, hshape, fun x hx => ?_,
    fun tag hlt => ?_, fun x rel hl => ?_⟩, htext', ?_, rfl, _, issued_shown q op t rfl⟩
  · have hcounter : tag < q.counter + 1 := hlt
    change (q.tagIdentities.insert op.tag (q.counter + 1, q.peer)).lookup tag = some (tag + 1, peer)
    by_cases hne : tag = op.tag
    · subst hne
      rw [Finmap.lookup_insert, h.owner, htag]
    · rw [Finmap.lookup_insert_of_ne _ hne]
      exact h.tags tag (by omega)
  · rw [hchars] at hx
    rcases Finmap.mem_insert.mp hx with rfl | hx
    · exact le_rfl
    · exact (h.below x hx).trans (Nat.le_succ _)
  · have hcounter : tag < q.counter + 1 := hlt
    rw [hchars, Finmap.mem_insert]
    by_cases hne : tag = q.counter
    · exact Or.inl (by rw [hne])
    · exact Or.inr (h.taken tag (by omega))
  · rw [hchars] at hl
    by_cases hx : x = (q.counter + 1, peer)
    · subst hx
      rw [Finmap.lookup_insert, Option.some.injEq] at hl
      subst hl
      exact Or.inr ⟨q.counter, rfl, htag ▸ hv⟩
    · rw [Finmap.lookup_insert_of_ne _ hx] at hl
      exact h.values x rel hl
  · have hn : tick q.counter = some (q.counter + 1) := tick_eq_some.mpr ⟨hroom, rfl⟩
    rw [(addIde_confirms h.sound hn he).1, htag, h.owner]

theorem served_remove (h : Serving path ref peer letters q f) {op : Remove}
    (hg : Genuine path letters (.remove op))
    (hp : processed peer (text f) (.remove op) = some doc) :
    ∃ q' g, q.removeIdeOperation op = some q' ∧ Serving path ref peer letters q' g ∧ text g = doc ∧
      newlyConfirmed q q' = [] ∧ q'.counter = q.counter := by
  have hpath : op.filePath = path := hg
  have hx : op.identity ≠ root := by
    intro he
    rw [processed, if_pos he] at hp
    exact absurd hp (by simp)
  rw [processed, if_neg hx] at hp
  have hmem : op.identity ∈ text f := by
    by_contra hn
    have hnone : (text f).idxOf? op.identity = none := by rwa [List.idxOf?_eq_none_iff]
    rw [deleteFrom, hnone] at hp
    exact absurd hp (by simp)
  obtain ⟨l, r, htext⟩ := List.append_of_mem hmem
  obtain rfl : doc = l ++ r := by
    rw [htext, deleteFrom_middle (htext ▸ h.shape.nodup), Option.some.injEq] at hp
    exact hp.symm
  have hremoved : ∀ {o g}, Removed f op.identity o g → _ := fun hr =>
    live_removed h.shape hx htext hr
  have hsafe : ¬ BreakOnTop q.tree op.filePath op.identity := by
    rintro ⟨ref', f', hr, hf, hb⟩
    rw [hpath, h.routed, Option.some.injEq] at hr
    subst hr
    rw [h.file, Option.some.injEq] at hf
    subst hf
    exact shape_no_break_on_top h.shape hb
  obtain ⟨t, pos, cb, ht, he⟩ := BenchMirror.quiet_remove h.sound hx hsafe fun o t ht => by
    obtain ⟨g, hg, _⟩ := routed_removed (hpath ▸ h.routed) h.file ht
    exact (hremoved hg).1
  obtain ⟨g, hg, hgf⟩ := routed_removed (hpath ▸ h.routed) h.file ht
  obtain ⟨_, hshape, htext', rel, hrel, hchars⟩ := hremoved hg
  refine ⟨(withTree q t).fire cb, g, he, ⟨(ht.routes.findFile path).trans h.routed,
    ht.sound hx h.sound,
    ⟨h.quiet.ide, h.quiet.tag, h.quiet.network, h.quiet.ideWorklist, h.quiet.networkWorklist⟩,
    h.owner, h.tags, hgf, hshape, fun x hm => ?_, fun tag hlt => ?_, fun x rel' hl => ?_⟩, htext', ?_,
    rfl⟩
  · rw [hchars] at hm
    exact h.below x ((mem_mark hrel).mp hm)
  · rw [hchars]
    exact (mem_mark hrel).mpr (h.taken tag hlt)
  · rw [hchars, mark] at hl
    by_cases hxx : x = op.identity
    · subst hxx
      rw [Finmap.lookup_insert, Option.some.injEq] at hl
      subst hl
      exact h.values op.identity rel hrel
    · rw [Finmap.lookup_insert_of_ne _ hxx] at hl
      exact h.values x rel' hl
  · exact (removeIde_confirms h.sound he).1

end Serving

end SocketBench
