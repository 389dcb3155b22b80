import AgentChain.PeerSlots

/-!
# The newest connection wins

Messages to a key go to the first slot that shows the key.  When a peer connects again while the
slot of its old connection is still there, the reader of the new connection hides the old slot
before it enters the key in its own.

The hiding is done under the lock, the entering is not.  As long as no two readers with one key
are between the two at the same time, every key is shown by one slot only, the key of the node
itself by none, and an active slot belongs to the connection that has entered its key last
(`newest_connection_wins`).  When they are, both slots show the key (`key_shown_twice`).
-/

namespace AgentChain

open Trace

/-- The slot shows a key. -/
structure Slot.Shows (s : Slot) (peerId : Addr) : Prop where
  inUse : s.peer.inUse = true
  known : s.peer.peerIdKnown = true
  key : s.peer.peerId = peerId

/-- Every key is shown or about to be entered in one slot only, and that of the node in none. -/
structure Routes (cfg : NetConfig) (n : SlotTable) : Prop where
  distinct : ∀ i j peerId, (n i).Shows peerId → (n j).Shows peerId → i = j
  entering : ∀ i peerId, (n i).Entering peerId → ∀ j, j ≠ i → ¬ (n j).Shows peerId
  alone : ∀ i j peerId, (n i).Entering peerId → (n j).Entering peerId → i = j
  foreign : ∀ i peerId, (n i).Shows peerId ∨ (n i).Entering peerId → peerId ≠ cfg.keypair.pk

/-- The slot in which a key was entered last. -/
def lastPublished (es : List NetEvent) (peerId : Addr) : Option (Fin acMaxPeers) :=
  es.foldl (fun last e => match e with
    | .slot i (.published x) => if x = peerId then some i else last
    | _ => last) none

/-- Every key that is shown was entered last in the slot that shows it. -/
def EnteredLast (es : List NetEvent) (n : SlotTable) : Prop :=
  ∀ i peerId, (n i).Shows peerId → lastPublished es peerId = some i

/-- The slot shows and enters no other keys than before. -/
structure Slot.Quieter (s s' : Slot) : Prop where
  shows : ∀ peerId, s'.Shows peerId → s.Shows peerId
  entering : ∀ peerId, s'.Entering peerId → s.Entering peerId

section Steps

variable {s s' : Slot} {es : List SlotEvent} {g : ℕ} {p : Peer} {peerId : Addr} {hello : Hello}

lemma Slot.Quieter.refl (s : Slot) : s.Quieter s := ⟨fun _ h => h, fun _ h => h⟩

/-- A step in which the peer keeps its key and no reader comes to enter one. -/
lemma Slot.Quieter.of_same (huse : s'.peer.inUse = true → s.peer.inUse = true)
    (hknown : s'.peer.peerIdKnown = true → s.peer.peerIdKnown = true)
    (hkey : s'.peer.peerId = s.peer.peerId)
    (hreader : ∀ g hello, (s'.threads g).reader = .evicted hello →
      (s.threads g).reader = .evicted hello) : s.Quieter s' where
  shows _ h := ⟨huse h.inUse, hknown h.known, hkey.symm.trans h.key⟩
  entering := by
    rintro peerId ⟨g, hello, hpc, hid⟩
    exact ⟨g, hello, hreader g hello hpc, hid⟩

/-- Moving the threads of one connection to a place where no key is entered. -/
lemma Slot.move_reader {t : Threads} (ht : ∀ hello, t.reader = .evicted hello →
    (s.threads g).reader = .evicted hello) (g' : ℕ) (hello : Hello)
    (h : ((s.move g t).threads g').reader = .evicted hello) :
    (s.threads g').reader = .evicted hello := by
  by_cases hg : g' = g
  · subst hg
    rw [Slot.move_threads_self] at h
    exact ht hello h
  · rwa [Slot.move_threads_of_ne hg] at h

/-- A step of a slot shows nothing new, or a reader enters its key. -/
lemma Slot.Step.quieter_or_published (h : Slot.Step s es s') :
    ((∀ peerId, .published peerId ∉ es) ∧ s.Quieter s') ∨
      ∃ peerId, es = [.published peerId] ∧ s.Entering peerId ∧
        (∀ x, s'.Shows x → x = peerId) ∧ ∀ x, s'.Entering x → s.Entering x := by
  cases h with
  | opened g fd host port hfd hpc =>
    exact .inl ⟨by simp, .of_same id id rfl (Slot.move_reader fun _ h => h)⟩
  | startedWriter g hpc => exact .inl ⟨by simp, .of_same id id rfl (Slot.move_reader fun _ h => h)⟩
  | failedWriter g hpc => exact .inl ⟨by simp, .of_same id id rfl (Slot.move_reader fun _ h => h)⟩
  | notedWriter g hpc => exact .inl ⟨by simp, .of_same id id rfl (Slot.move_reader fun _ h => h)⟩
  | startedReader g hpc => exact .inl ⟨by simp, .of_same id id rfl (Slot.move_reader (by simp))⟩
  | failedReader g hpc => exact .inl ⟨by simp, .of_same id id rfl (Slot.move_reader fun _ h => h)⟩
  | notedReader g hpc => exact .inl ⟨by simp, .of_same id id rfl (Slot.move_reader fun _ h => h)⟩
  | endedWriter g hpc => exact .inl ⟨by simp, .of_same id id rfl (Slot.move_reader fun _ h => h)⟩
  | closed g hpc => exact .inl ⟨by simp, .of_same id id rfl (Slot.move_reader (by simp))⟩
  | looked hidle =>
    refine .inl ⟨fun peerId => ?_, .of_same id id rfl fun _ _ h => h⟩
    split_ifs
    · simp
    · simp
  | woken g needReader hpc => exact .inl ⟨by simp, .of_same id id rfl fun _ _ h => h⟩
  | joinedWriter g needReader hpc hended => exact .inl ⟨by simp, .of_same id id rfl fun _ _ h => h⟩
  | joinedReader g hpc hended => exact .inl ⟨by simp, .of_same id id rfl fun _ _ h => h⟩
  | released hpc =>
    refine .inl ⟨by simp, ?_⟩
    split_ifs
    · exact .of_same (by simp) id rfl fun _ _ h => h
    · exact .of_same id id rfl fun _ _ h => h
  | published g hello host hpc hhost =>
    refine .inr ⟨hello.peerId, rfl, ⟨g, hello, hpc, rfl⟩, fun x hx => hx.key.symm, ?_⟩
    rintro x ⟨g', hello', hpc', hid⟩
    exact ⟨g', hello', Slot.move_reader (by simp) g' hello' hpc', hid⟩

/-- What a reader changes when it enters its key. -/
lemma Slot.Step.published_inv (h : Slot.Step s [.published peerId] s') :
    (∃ g hello, (s.threads g).reader = .evicted hello) ∧ s'.peer.inUse = s.peer.inUse ∧
      s'.peer.fd = s.peer.fd ∧ s'.peer.peerIdKnown = true ∧ s'.peer.peerId = peerId := by
  generalize hes : [SlotEvent.published peerId] = es at h
  cases h with
  | published g hello host hpc hhost =>
    cases hes
    exact ⟨⟨g, hello, hpc⟩, rfl, rfl, rfl, rfl⟩
  | looked hidle =>
    split_ifs at hes
    cases hes
  | opened => cases hes
  | startedWriter => cases hes
  | failedWriter => cases hes
  | notedWriter => cases hes
  | startedReader => cases hes
  | failedReader => cases hes
  | notedReader => cases hes
  | endedWriter => cases hes
  | closed => cases hes
  | woken => cases hes
  | joinedWriter => cases hes
  | joinedReader => cases hes
  | released => cases hes

end Steps

section Table

variable {cfg : NetConfig} {n n' : SlotTable} {es : List NetEvent} {i : Fin acMaxPeers} {g : ℕ}
  {hello : Hello}

/-- Slots that show and enter nothing new. -/
lemma Routes.quieter (h : Routes cfg n) (hq : ∀ i, (n i).Quieter (n' i)) : Routes cfg n' where
  distinct i j x hi hj := h.distinct i j x ((hq i).shows x hi) ((hq j).shows x hj)
  entering i x hi j hj hx := h.entering i x ((hq i).entering x hi) j hj ((hq j).shows x hx)
  alone i j x hi hj := h.alone i j x ((hq i).entering x hi) ((hq j).entering x hj)
  foreign i x hx := h.foreign i x (hx.imp ((hq i).shows x) ((hq i).entering x))

/-- A reader enters the key that it was about to enter. -/
lemma Routes.published (h : Routes cfg n) {s : Slot} {peerId : Addr}
    (hentering : (n i).Entering peerId) (hshows : ∀ x, s.Shows x → x = peerId)
    (hless : ∀ x, s.Entering x → (n i).Entering x) : Routes cfg (Function.update n i s) := by
  have hshow : ∀ j x, (Function.update n i s j).Shows x →
      j = i ∧ x = peerId ∨ j ≠ i ∧ (n j).Shows x := by
    intro j x hx
    rw [Function.update_apply] at hx
    split_ifs at hx with hj
    · exact .inl ⟨hj, hshows x hx⟩
    · exact .inr ⟨hj, hx⟩
  have henter : ∀ j x, (Function.update n i s j).Entering x → (n j).Entering x := by
    intro j x hx
    rw [Function.update_apply] at hx
    split_ifs at hx with hj
    · rw [hj]
      exact hless x hx
    · exact hx
  refine ⟨fun j k x hj hk => ?_, fun j x hj k hk hx => ?_,
    fun j k x hj hk => h.alone j k x (henter j x hj) (henter k x hk), fun j x hx => ?_⟩
  · rcases hshow j x hj with ⟨hji, hx⟩ | ⟨hji, hj'⟩
    · rcases hshow k x hk with ⟨hki, -⟩ | ⟨hki, hk'⟩
      · exact hji.trans hki.symm
      · exact absurd (hx ▸ hk') (h.entering i peerId hentering k hki)
    · rcases hshow k x hk with ⟨-, hx⟩ | ⟨-, hk'⟩
      · exact absurd (hx ▸ hj') (h.entering i peerId hentering j hji)
      · exact h.distinct j k x hj' hk'
  · rcases hshow k x hx with ⟨rfl, rfl⟩ | ⟨-, hx⟩
    · exact hk (h.alone k j x hentering (henter j x hj))
    · exact h.entering j x (henter j x hj) k hk hx
  · rcases hx with hx | hx
    · rcases hshow j x hx with ⟨rfl, rfl⟩ | ⟨-, hx⟩
      · exact h.foreign j x (.inr hentering)
      · exact h.foreign j x (.inl hx)
    · exact h.foreign j x (.inr (henter j x hx))

/-- What a slot shows after it was hidden from a key. -/
lemma Slot.evict_shows {s : Slot} {peerId x : Addr} (h : (s.evict peerId).Shows x) :
    s.Shows x ∧ x ≠ peerId := by
  rw [Slot.evict] at h
  split_ifs at h with hhit
  · exact absurd h.known (by simp)
  · refine ⟨h, fun hx => hhit ?_⟩
    simp [h.inUse, h.known, h.key, hx]

lemma Slot.evict_entering {s : Slot} {peerId x : Addr} (h : (s.evict peerId).Entering x) :
    s.Entering x := by
  rw [Slot.evict] at h
  split_ifs at h
  · exact h
  · exact h

/-- What the slots show when a reader has hidden the others with its key. -/
lemma SlotTable.evictOthers_shows {j : Fin acMaxPeers} {x : Addr}
    (hx : (n.evictOthers i g hello j).Shows x) : (n j).Shows x ∧ (j ≠ i → x ≠ hello.peerId) := by
  rw [SlotTable.evictOthers] at hx
  split_ifs at hx with hj
  · subst hj
    exact ⟨⟨hx.inUse, hx.known, hx.key⟩, fun hne => absurd rfl hne⟩
  · exact ⟨(Slot.evict_shows hx).1, fun _ => (Slot.evict_shows hx).2⟩

/-- The reader has hidden the other slots with the key. -/
lemma Routes.evictOthers (h : Routes cfg n) (hself : hello.peerId ≠ cfg.keypair.pk)
    (hclear : ∀ j, j ≠ i → ¬ (n j).Entering hello.peerId) :
    Routes cfg (n.evictOthers i g hello) := by
  have hshow : ∀ j x, (n.evictOthers i g hello j).Shows x →
      (n j).Shows x ∧ (j ≠ i → x ≠ hello.peerId) := fun j x => SlotTable.evictOthers_shows
  have henter : ∀ j x, (n.evictOthers i g hello j).Entering x →
      (n j).Entering x ∨ j = i ∧ x = hello.peerId := by
    intro j x hx
    rw [SlotTable.evictOthers] at hx
    split_ifs at hx with hj
    · subst hj
      obtain ⟨g', hello', hpc, hid⟩ := hx
      by_cases hg : g' = g
      · subst hg
        rw [Slot.move_threads_self, ReaderPc.evicted.injEq] at hpc
        exact .inr ⟨rfl, by rw [← hid, ← hpc]⟩
      · rw [Slot.move_threads_of_ne hg] at hpc
        exact .inl ⟨g', hello', hpc, hid⟩
    · exact .inl (Slot.evict_entering hx)
  refine ⟨fun j k x hj hk => h.distinct j k x (hshow j x hj).1 (hshow k x hk).1,
    fun j x hj k hk hx => ?_, fun j k x hj hk => ?_, fun j x hx => ?_⟩
  · rcases henter j x hj with hj | ⟨rfl, rfl⟩
    · exact h.entering j x hj k hk (hshow k x hx).1
    · exact (hshow k _ hx).2 hk rfl
  · rcases henter j x hj with hj' | ⟨hji, hx⟩
    · rcases henter k x hk with hk' | ⟨hki, hx⟩
      · exact h.alone j k x hj' hk'
      · by_contra hne
        exact hclear j (hki ▸ hne) (hx ▸ hj')
    · rcases henter k x hk with hk' | ⟨hki, -⟩
      · by_contra hne
        exact hclear k (fun hki => hne (hji.trans hki.symm)) (hx ▸ hk')
      · exact hji.trans hki.symm
  · rcases hx with hx | hx
    · exact h.foreign j x (.inl (hshow j x hx).1)
    · rcases henter j x hx with hx | ⟨-, rfl⟩
      · exact h.foreign j x (.inr hx)
      · exact hself

/-- **What one step does to the keys.**  No slot shows or enters a new one, or a reader hides the
other slots with its key, or a reader enters its key. -/
lemma SlotTable.Step.keys (hs : SlotTable.Step cfg n es n') :
    ((∀ i x, .slot i (.published x) ∉ es) ∧ ∀ j, (n j).Quieter (n' j)) ∨
    (∃ i g hello, n' = n.evictOthers i g hello ∧ hello.peerId ≠ cfg.keypair.pk ∧
      (es = [] ∧ (∀ j, j ≠ i → ¬ (n j).Entering hello.peerId) ∨ es = [.overlap])) ∨
    ∃ i peerId s, es = [.slot i (.published peerId)] ∧ n' = Function.update n i s ∧
      (n i).Entering peerId ∧ (∀ x, s.Shows x → x = peerId) ∧
      ∀ x, s.Entering x → (n i).Entering x := by
  cases hs with
  | slot i es s hstep =>
    rcases hstep.quieter_or_published with ⟨hnone, hq⟩ | ⟨peerId, rfl, hentering, hshows, hless⟩
    · refine .inl ⟨fun k x hmem => ?_, fun j => ?_⟩
      · obtain ⟨e, he, heq⟩ := List.mem_map.mp hmem
        rw [NetEvent.slot.injEq] at heq
        exact hnone x (heq.2 ▸ he)
      · rw [Function.update_apply]
        split_ifs with hj
        · rw [hj]
          exact hq
        · exact .refl _
    · exact .inr (.inr ⟨i, peerId, s, rfl, rfl, hentering, hshows, hless⟩)
  | alloc i hfree =>
    refine .inl ⟨by simp, fun j => ?_⟩
    rw [Function.update_apply]
    split_ifs with hj
    · subst hj
      refine ⟨fun x hx => absurd hx.known (by simp [Slot.alloc, Peer.zeroed]), ?_⟩
      rintro x ⟨g, hello, hpc, hid⟩
      by_cases hg : g = (n j).conn + 1
      · rw [hg] at hpc
        exact absurd hpc (by simp [Slot.alloc])
      · rw [show (n j).alloc.threads g = (n j).threads g from Function.update_of_ne hg ..] at hpc
        exact ⟨g, hello, hpc, hid⟩
    · exact .refl _
  | handshake i g hello hpc hchain hself hclear =>
    exact .inr (.inl ⟨i, g, hello, rfl, hself, .inl ⟨rfl, hclear⟩⟩)
  | overlapping i g hello hpc hchain hself hmeet =>
    exact .inr (.inl ⟨i, g, hello, rfl, hself, .inr rfl⟩)
  | broadcast mallocOk f exclude =>
    refine .inl ⟨by simp, fun j => ?_⟩
    obtain ⟨huse, -, hkey, hknown⟩ := acNetBroadcast_same mallocOk n.peers f exclude j
    exact .of_same (huse ▸ id) (hknown ▸ id) hkey fun _ _ h => h
  | sendTo mallocOk f peerId =>
    refine .inl ⟨by simp, fun j => ?_⟩
    obtain ⟨huse, -, hkey, hknown⟩ := acNetSendTo_same mallocOk n.peers f peerId j
    exact .of_same (huse ▸ id) (hknown ▸ id) hkey fun _ _ h => h

/-- **Every step keeps the routes**, as long as no two readers with one key overlap. -/
lemma SlotTable.Step.routes (hs : SlotTable.Step cfg n es n') (h : Routes cfg n)
    (hoverlap : .overlap ∉ es) : Routes cfg n' := by
  rcases hs.keys with ⟨-, hquieter⟩ | ⟨i, g, hello, rfl, hself, ⟨-, hclear⟩ | rfl⟩ |
    ⟨i, peerId, s, rfl, rfl, hentering, hshows, hless⟩
  · exact h.quieter hquieter
  · exact h.evictOthers hself hclear
  · exact absurd (List.mem_singleton_self _) hoverlap
  · exact h.published hentering hshows hless

/-- Without a key being entered, the last ones are the same. -/
lemma lastPublished_append {fs new : List NetEvent} (h : ∀ i x, .slot i (.published x) ∉ new)
    (peerId : Addr) : lastPublished (fs ++ new) peerId = lastPublished fs peerId := by
  induction new using List.reverseRecOn with
  | nil => rw [List.append_nil]
  | append_singleton new e ih =>
    have hnew := ih fun i x hmem => h i x (List.mem_append_left _ hmem)
    rw [← List.append_assoc, lastPublished, List.foldl_append, List.foldl_cons, List.foldl_nil]
    match e with
    | .slot i (.published x) =>
      exact absurd (List.mem_append_right _ (List.mem_singleton_self _)) (h i x)
    | .slot i .earlyLook => exact hnew
    | .overlap => exact hnew

lemma lastPublished_published (fs : List NetEvent) (i : Fin acMaxPeers) (x peerId : Addr) :
    lastPublished (fs ++ [.slot i (.published x)]) peerId =
      if x = peerId then some i else lastPublished fs peerId := by
  rw [lastPublished, List.foldl_append]
  rfl

/-- **Every step keeps the newest connection of a key in its slot.** -/
lemma EnteredLast.step {fs : List NetEvent} (h : EnteredLast fs n) (hroutes : Routes cfg n)
    (hs : SlotTable.Step cfg n es n') : EnteredLast (fs ++ es) n' := by
  intro j x hx
  rcases hs.keys with ⟨hnone, hquieter⟩ | ⟨i, g, hello, rfl, -, hes⟩ |
    ⟨i, peerId, s, rfl, rfl, hentering, hshows, -⟩
  · rw [lastPublished_append hnone]
    exact h j x ((hquieter j).shows x hx)
  · have hnone : ∀ i x, .slot i (.published x) ∉ es := by
      rcases hes with ⟨rfl, -⟩ | rfl
      · simp
      · simp
    rw [lastPublished_append hnone]
    exact h j x (SlotTable.evictOthers_shows hx).1
  · rw [lastPublished_published]
    rw [Function.update_apply] at hx
    split_ifs at hx with hj
    · rw [if_pos (hshows x hx).symm, hj]
    · have hne : peerId ≠ x := by
        -- the slots with the key were hidden before it was entered
        rintro rfl
        exact hroutes.entering i peerId hentering j hj hx
      rw [if_neg hne]
      exact h j x hx

lemma SlotTable.routes_of_run (h : Run (SlotTable.Step cfg) .initial es n)
    (hoverlap : .overlap ∉ es) : Routes cfg n := by
  refine h.invariant (I := fun es n => .overlap ∉ es → Routes cfg n) (fun _ => ?_) ?_ hoverlap
  · have hshow : ∀ i x, ¬ (SlotTable.initial i).Shows x := fun _ _ hx => by cases hx.inUse
    have henter : ∀ i x, ¬ (SlotTable.initial i).Entering x := by
      rintro i x ⟨g, hello, hpc, -⟩
      cases hpc
    exact ⟨fun i _ x hi => absurd hi (hshow i x), fun i x hi => absurd hi (henter i x),
      fun i _ x hi => absurd hi (henter i x), fun i x hx => absurd hx (by simp [hshow, henter])⟩
  · intro fs t new v hI hs hclean
    rw [List.mem_append, not_or] at hclean
    exact hs.routes (hI hclean.1) hclean.2

lemma SlotTable.enteredLast_of_run (h : Run (SlotTable.Step cfg) .initial es n)
    (hoverlap : .overlap ∉ es) : EnteredLast es n := by
  refine (h.invariant (I := fun es n => .overlap ∉ es → Routes cfg n ∧ EnteredLast es n)
    (fun _ => ⟨SlotTable.routes_of_run (.refl _) (by simp), ?_⟩) ?_ hoverlap).2
  · intro i x hx
    cases hx.inUse
  · intro fs t new v hI hs hclean
    rw [List.mem_append, not_or] at hclean
    obtain ⟨hroutes, hlast⟩ := hI hclean.1
    exact ⟨hs.routes hroutes hclean.2, hlast.step hroutes hs⟩

/-- An active slot shows its key. -/
lemma SlotTable.shows_of_active (h : (n.peers i).active = true) :
    (n i).Shows (n.peers i).peerId := by
  rw [Peer.active, Bool.and_eq_true, Bool.and_eq_true] at h
  exact ⟨h.1.1, h.1.2, rfl⟩

/-- The route to a key that one slot only shows. -/
lemma Routes.routeTo (h : Routes cfg n) (hactive : (n.peers i).active = true) :
    n.peers.routeTo (n.peers i).peerId = some i := by
  have hfound : (n.peers.routeTo (n.peers i).peerId).isSome := by
    rw [PeerTable.routeTo, List.find?_isSome]
    exact ⟨i, List.mem_finRange i, by simp [hactive]⟩
  obtain ⟨j, hj⟩ := Option.isSome_iff_exists.mp hfound
  have hmatch := List.find?_some hj
  rw [Bool.and_eq_true, decide_eq_true_eq] at hmatch
  rw [hj, h.distinct j i _ (hmatch.2 ▸ SlotTable.shows_of_active hmatch.1)
    (SlotTable.shows_of_active hactive)]

end Table

/-! ### Two connections of one peer -/

/-- A slot in which both threads are started, and the first message is awaited. -/
lemma exists_greeting : ∃ s, Run Slot.Step Slot.initial.alloc [] s ∧ s.peer.inUse = true ∧
    s.peer.fd = 7 ∧ s.peer.peerIdKnown = false ∧ (s.threads 1).reader = .greeting ∧
    ∀ g, (s.threads g).reader = .greeting ∨ (s.threads g).reader = .none := by
  have hlife : Run Slot.Step Slot.initial.alloc _ _ :=
    (Run.refl _).tail (.opened _ 1 7 Peer.zeroed.host 0 (by decide) rfl)
      |>.tail (.startedWriter _ 1 rfl) |>.tail (.notedWriter _ 1 rfl)
      |>.tail (.startedReader _ 1 rfl) |>.tail (.notedReader _ 1 rfl)
  refine ⟨_, hlife, rfl, rfl, rfl, rfl, fun g => ?_⟩
  by_cases hg : g = 1
  · subst hg
    exact .inl rfl
  · right
    simp [Slot.move, Slot.alloc, Slot.initial, hg, Threads.unborn]

/-- The first message of a peer with another key. -/
def otherHello : Hello := ⟨1, ByteArr.fill 32 1, 0, [0], []⟩

lemma secondSlot_lt : 1 < acMaxPeers := by decide

/-- The slot that is handed out when the first one is in use. -/
def secondSlot : Fin acMaxPeers := ⟨1, secondSlot_lt⟩

lemma firstFree_second {s : Slot} (h : s.peer.inUse = true) :
    SlotTable.firstFree (Function.update SlotTable.initial firstSlot s) = some secondSlot := by
  have hslots : List.finRange acMaxPeers =
      firstSlot :: secondSlot :: (List.finRange acMaxPeers).drop 2 := by decide
  rw [SlotTable.firstFree, hslots, List.find?_cons_of_neg, List.find?_cons_of_pos]
  · rfl
  · rw [Function.update_self, h]
    simp

/-- A slot without a key is not hidden. -/
lemma Slot.evict_unknown {s : Slot} (h : s.peer.peerIdKnown = false) (x : Addr) :
    s.evict x = s := by
  rw [Slot.evict, if_neg (by simp [h])]

/-- Nobody is about to enter a key in such slots. -/
lemma not_entering {s : Slot}
    (h : ∀ g, (s.threads g).reader = .greeting ∨ (s.threads g).reader = .none) (x : Addr) :
    ¬ s.Entering x := by
  rintro ⟨g, hello, hpc, -⟩
  rcases h g with hg | hg
  · rw [hg] at hpc
    cases hpc
  · rw [hg] at hpc
    cases hpc

lemma not_entering_initial (x : Addr) : ¬ Slot.initial.Entering x :=
  not_entering (fun _ => .inr rfl) x

/-! ### Main results -/

/-- **The newest connection wins.**  Whatever the order of the steps of all threads of a node: as
long as no two readers hide and enter the same key at the same time, every active slot is the
route to its key, which is not the key of the node, and it is the slot in which this key was
entered last.  If moreover the reaper has not looked too early, a reader that enters its key makes
its slot the route to it at once. -/
theorem newest_connection_wins {cfg : NetConfig} {es : List NetEvent} {n : SlotTable}
    (h : Run (SlotTable.Step cfg) .initial es n) (hoverlap : .overlap ∉ es) :
    (∀ i, (n.peers i).active = true → n.peers.routeTo (n.peers i).peerId = some i ∧
        (n.peers i).peerId ≠ cfg.keypair.pk ∧
        lastPublished es (n.peers i).peerId = some i) ∧
      ((∀ i, .slot i .earlyLook ∉ es) → ∀ i peerId s, Slot.Step (n i) [.published peerId] s →
        (SlotTable.peers (Function.update n i s)).routeTo peerId = some i) := by
  have hroutes := SlotTable.routes_of_run h hoverlap
  refine ⟨fun i hactive => ?_, fun hearly i peerId s hs => ?_⟩
  · have hshows := SlotTable.shows_of_active hactive
    exact ⟨hroutes.routeTo hactive, hroutes.foreign i _ (.inl hshows),
      SlotTable.enteredLast_of_run h hoverlap i _ hshows⟩
  · obtain ⟨⟨g, hello, hpc⟩, huse, hfd, hknown, hkey⟩ := hs.published_inv
    have hinv := SlotTable.inv_of_run h hearly i
    obtain ⟨-, hin, hopen⟩ := hinv.reader_open hpc
    have hself : SlotTable.peers (Function.update n i s) i = s.peer := by
      rw [SlotTable.peers, Function.update_self]
    have hstep : SlotTable.Step cfg n _ (Function.update n i s) := .slot n i _ s hs
    have hnext := hstep.routes hroutes (by simp)
    have hroute := hnext.routeTo (i := i) (by
      rw [hself, Peer.active, huse, hin, hknown, hfd]
      simpa using hopen)
    rwa [hself, hkey] at hroute

/-- The reader of the first slot has hidden the others and enters the key: the slot becomes the
route to it, and it is the one in which the key was entered last. -/
theorem newest_connection_wins_first : ∃ (es : List NetEvent) (n : SlotTable) (s : Slot),
    Slot.Step (n firstSlot) [.published otherHello.peerId] s ∧
      (SlotTable.peers (Function.update n firstSlot s)).routeTo otherHello.peerId =
        some firstSlot ∧
      Run (SlotTable.Step bareConfig) .initial es (Function.update n firstSlot s) ∧
      s.peer.active = true ∧ lastPublished es s.peer.peerId = some firstSlot := by
  obtain ⟨s, hlife, huse, hfd, -, hpc, -⟩ := exists_greeting
  have hopened := (SlotTable.run_alloc bareConfig).trans (SlotTable.run_slot hlife)
  have hclear : ∀ j, j ≠ firstSlot →
      ¬ (Function.update SlotTable.initial firstSlot s j).Entering otherHello.peerId := by
    intro j hj
    rw [Function.update_of_ne hj]
    exact not_entering_initial _
  have hshaken := hopened.tail (.handshake _ firstSlot 1 otherHello
    (by rw [Function.update_self, hpc]) rfl (by decide) hclear)
  generalize hn : SlotTable.evictOthers _ firstSlot 1 otherHello = n at hshaken
  have hfirst : n firstSlot = s.move 1 { s.threads 1 with reader := .evicted otherHello } := by
    rw [← hn, SlotTable.evictOthers, if_pos rfl, Function.update_self]
  have hpublish := Slot.Step.published (n firstSlot) 1 otherHello Peer.zeroed.host
    (by rw [hfirst]; simp) rfl
  have hshown := hshaken.tail (.slot _ firstSlot _ _ hpublish)
  refine ⟨_, n, _, hpublish,
    (newest_connection_wins hshaken (by simp)).2 (by simp) firstSlot _ _ hpublish, hshown, ?_, ?_⟩
  · simp [hfirst, Slot.move, Peer.active, huse, hfd]
  · have hlast := ((newest_connection_wins hshown (by simp)).1 firstSlot (by
      simp [SlotTable.peers, hfirst, Slot.move, Peer.active, huse, hfd])).2.2
    rwa [SlotTable.peers, Function.update_self] at hlast

/-- **A key that is shown twice.**  When two readers with one key overlap, both of their slots are
active and show it. -/
theorem key_shown_twice : ∃ (es : List NetEvent) (n : SlotTable) (i j : Fin acMaxPeers),
    Run (SlotTable.Step bareConfig) .initial es n ∧ i ≠ j ∧ (n.peers i).active = true ∧
      (n.peers j).active = true ∧ (n.peers i).peerId = (n.peers j).peerId := by
  obtain ⟨s, hlife, huse, hfd, hknown, hpc, hreaders⟩ := exists_greeting
  have hne : secondSlot ≠ firstSlot := by decide
  have hopened := (SlotTable.run_alloc bareConfig).trans (SlotTable.run_slot hlife)
  have halloc := hopened.tail (.alloc _ secondSlot (firstFree_second huse))
  rw [Function.update_of_ne hne] at halloc
  have hboth := halloc.trans (SlotTable.run_slot
    (n := Function.update SlotTable.initial firstSlot s) (i := secondSlot) hlife)
  have hclear : ∀ j, j ≠ firstSlot → ¬ (Function.update (Function.update SlotTable.initial
      firstSlot s) secondSlot s j).Entering otherHello.peerId := by
    intro j hj
    by_cases hj' : j = secondSlot
    · rw [hj', Function.update_self]
      exact not_entering hreaders _
    · rw [Function.update_of_ne hj', Function.update_of_ne hj]
      exact not_entering_initial _
  have hfirst := hboth.tail (.handshake _ firstSlot 1 otherHello
    (by rw [Function.update_of_ne hne.symm, Function.update_self, hpc]) rfl (by decide) hclear)
  -- both readers have hidden the other slots, and neither has entered the key
  generalize hn₃ : SlotTable.evictOthers _ firstSlot 1 otherHello = n₃ at hfirst
  have hfirst₃ : n₃ firstSlot = s.move 1 { s.threads 1 with reader := .evicted otherHello } := by
    rw [← hn₃, SlotTable.evictOthers, if_pos rfl, Function.update_of_ne hne.symm,
      Function.update_self]
  have hsecond₃ : n₃ secondSlot = s := by
    rw [← hn₃, SlotTable.evictOthers, if_neg hne, Function.update_self, Slot.evict_unknown hknown]
  have hsecond := hfirst.tail (.overlapping _ secondSlot 1 otherHello (by rw [hsecond₃, hpc]) rfl
    (by decide) ⟨firstSlot, hne.symm, 1, otherHello, by rw [hfirst₃]; simp, rfl⟩)
  generalize hn₄ : n₃.evictOthers secondSlot 1 otherHello = n₄ at hsecond
  have hfirst₄ : n₄ firstSlot = s.move 1 { s.threads 1 with reader := .evicted otherHello } := by
    rw [← hn₄, SlotTable.evictOthers, if_neg hne.symm, hfirst₃]
    exact Slot.evict_unknown (show (s.move 1 _).peer.peerIdKnown = false from hknown) _
  have hsecond₄ : n₄ secondSlot = s.move 1 { s.threads 1 with reader := .evicted otherHello } := by
    rw [← hn₄, SlotTable.evictOthers, if_pos rfl, hsecond₃]
  -- they enter it
  have hshown := (hsecond.tail (.slot _ firstSlot _ _ (.published _ 1 otherHello Peer.zeroed.host
    (by rw [hfirst₄]; simp) rfl))).tail (.slot _ secondSlot _ _ (.published _ 1 otherHello
    Peer.zeroed.host (by rw [Function.update_of_ne hne, hsecond₄]; simp) rfl))
  refine ⟨_, _, firstSlot, secondSlot, hshown, hne.symm, ?_, ?_, ?_⟩
  · simp [SlotTable.peers, Function.update_of_ne hne.symm, hfirst₄, Slot.move, Peer.active, huse,
      hfd]
  · simp [SlotTable.peers, Function.update_of_ne hne, hsecond₄, Slot.move, Peer.active, huse, hfd]
  · simp [SlotTable.peers, Function.update_of_ne hne.symm, Slot.move]

end AgentChain
