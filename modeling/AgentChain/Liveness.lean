import AgentChain.Verdict

/-!
# The liveness map of a history

The liveness map is a list of addresses with the height they last signed.  For one address
only the heights of its entries matter (`heightsOf`), and after a history they are known: the
first entry has the last height the address signed, further entries stem from a genesis that
lists the address more than once.  What `ac_chain_live_sqrt_stake` counts is then decided by
the signers of the last sixteen blocks.
-/

namespace AgentChain

/-! ### One address -/

/-- The heights of the entries of an address, in order. -/
def heightsOf (m : List LiveEntry) (a : Addr) : List UInt64 :=
  (m.filter fun e => e.addr = a).map LiveEntry.lastSignHeight

/-- What recording a signature at height `h` does to the entries of the signer. -/
def raise (h : UInt64) : List UInt64 → List UInt64
  | [] => [h]
  | x :: xs => (if x < h then h else x) :: xs

lemma raise_raise (h : UInt64) (hs : List UInt64) : raise h (raise h hs) = raise h hs := by
  cases hs with
  | nil => simp [raise]
  | cons x xs =>
    by_cases hx : x < h
    · simp [raise, hx]
    · simp [raise, hx]

lemma heightsOf_cons (e : LiveEntry) (m : List LiveEntry) (a : Addr) :
    heightsOf (e :: m) a = if e.addr = a then e.lastSignHeight :: heightsOf m a
      else heightsOf m a := by
  rw [heightsOf, List.filter_cons]
  by_cases h : e.addr = a
  · simp [h, heightsOf]
  · simp [h, heightsOf]

/-- Recording a signer leaves the entries of the others alone. -/
lemma heightsOf_liveRecord_of_ne {a x : Addr} (hne : x ≠ a) (m : List LiveEntry) (room : ℕ)
    (h : UInt64) : heightsOf (liveRecord m room x h) a = heightsOf m a := by
  induction m generalizing room with
  | nil =>
    rw [liveRecord]
    split_ifs
    · rw [heightsOf_cons, if_neg hne]
    · rfl
  | cons e m ih =>
    rw [liveRecord]
    by_cases hx : e.addr = x
    · have hea : e.addr ≠ a := hx ▸ hne
      rw [if_pos hx]
      by_cases hlt : e.lastSignHeight < h
      · rw [if_pos hlt]
        simp only [heightsOf_cons, hea, if_false]
      · rw [if_neg hlt]
    · rw [if_neg hx, heightsOf_cons, heightsOf_cons, ih]

/-- Recording a signer raises its first entry, or adds one unless the map is full. -/
lemma heightsOf_liveRecord_self (m : List LiveEntry) (room : ℕ) (a : Addr) (h : UInt64) :
    heightsOf (liveRecord m room a h) a = raise h (heightsOf m a) ∨
      heightsOf (liveRecord m room a h) a = [] ∧ heightsOf m a = [] := by
  induction m generalizing room with
  | nil =>
    rw [liveRecord]
    split_ifs
    · exact Or.inl (by simp [heightsOf, raise])
    · exact Or.inr ⟨rfl, rfl⟩
  | cons e m ih =>
    rw [liveRecord]
    by_cases hx : e.addr = a
    · rw [if_pos hx]
      refine Or.inl ?_
      by_cases hlt : e.lastSignHeight < h
      · simp only [hlt, heightsOf_cons, hx, if_true, raise]
      · simp only [hlt, heightsOf_cons, hx, if_true, if_false, raise]
    · rw [if_neg hx, heightsOf_cons, heightsOf_cons, if_neg hx, if_neg hx]
      exact ih _

/-- Once an address has an entry it keeps one. -/
lemma heightsOf_liveRecordSigners_ne_nil {m : List LiveEntry} {a : Addr}
    (hm : heightsOf m a ≠ []) (signers : List CommitSigner) (h : UInt64) :
    heightsOf (liveRecordSigners m signers h) a ≠ [] := by
  induction signers generalizing m with
  | nil => exact hm
  | cons g gs ih =>
    refine ih (show heightsOf (liveRecord m acMaxLive g.signer h) a ≠ [] from ?_)
    by_cases hg : g.signer = a
    · rcases heightsOf_liveRecord_self m acMaxLive a h with hr | ⟨-, hr⟩
      · rw [hg, hr]
        cases heightsOf m a <;> simp [raise]
      · exact absurd hr hm
    · rw [heightsOf_liveRecord_of_ne hg]
      exact hm

/-- A certificate leaves the entries of those who did not sign alone. -/
lemma heightsOf_liveRecordSigners_of_notMem {a : Addr} {signers : List CommitSigner}
    (ha : a ∉ signers.map CommitSigner.signer) (m : List LiveEntry) (h : UInt64) :
    heightsOf (liveRecordSigners m signers h) a = heightsOf m a := by
  induction signers generalizing m with
  | nil => rfl
  | cons g gs ih =>
    rw [List.map_cons, List.mem_cons, not_or] at ha
    exact (ih ha.2 _).trans (heightsOf_liveRecord_of_ne (Ne.symm ha.1) m acMaxLive h)

/-- A certificate raises the first entry of every signer that has an entry afterwards. -/
lemma heightsOf_liveRecordSigners_of_mem {a : Addr} {signers : List CommitSigner}
    (ha : a ∈ signers.map CommitSigner.signer) {m : List LiveEntry} {h : UInt64}
    (hne : heightsOf (liveRecordSigners m signers h) a ≠ []) :
    heightsOf (liveRecordSigners m signers h) a = raise h (heightsOf m a) := by
  induction signers generalizing m with
  | nil => exact absurd ha (by simp)
  | cons g gs ih =>
    have hrec : liveRecordSigners m (g :: gs) h =
        liveRecordSigners (liveRecord m acMaxLive g.signer h) gs h := rfl
    rw [hrec] at hne ⊢
    by_cases hgs : a ∈ gs.map CommitSigner.signer
    · rw [ih hgs hne]
      by_cases hg : g.signer = a
      · rw [hg]
        rcases heightsOf_liveRecord_self m acMaxLive a h with hr | ⟨hr, hr'⟩
        · rw [hr, raise_raise]
        · rw [hr, hr']
      · rw [heightsOf_liveRecord_of_ne hg]
    · have hg : g.signer = a := by
        rw [List.map_cons, List.mem_cons] at ha
        exact (ha.resolve_right hgs).symm
      rw [heightsOf_liveRecordSigners_of_notMem hgs] at hne ⊢
      rw [hg] at hne ⊢
      rcases heightsOf_liveRecord_self m acMaxLive a h with hr | ⟨hr, -⟩
      · exact hr
      · exact absurd hr hne

/-! ### A history -/

/-- The last height at which an address signed, zero when it never did. -/
def lastSigned (bs : List Block) (a : Addr) : UInt64 :=
  bs.foldl (fun l b => if a ∈ b.signerAddrs then b.header.height else l) 0

lemma lastSigned_snoc (bs : List Block) (b : Block) (a : Addr) :
    lastSigned (bs ++ [b]) a =
      if a ∈ b.signerAddrs then b.header.height else lastSigned bs a := by
  rw [lastSigned, List.foldl_append]
  rfl

lemma Consecutive.of_snoc {bs : List Block} {b : Block} (h : Consecutive (bs ++ [b])) :
    Consecutive bs ∧ b.header.height.toNat = bs.length + 1 := by
  refine ⟨fun i x hx => h i x ?_, h bs.length b (by simp)⟩
  rw [List.getElem?_append_left (List.getElem?_eq_some_iff.mp hx).1]
  exact hx

/-- **The last signature**: an address signed after height `m` exactly when its last height
is above `m`. -/
theorem exists_signed_drop_iff {bs : List Block} (h : Consecutive bs) (a : Addr) (m : ℕ) :
    (∃ b ∈ bs.drop m, a ∈ b.signerAddrs) ↔ m < (lastSigned bs a).toNat := by
  induction bs using List.reverseRecOn with
  | nil => simp [lastSigned]
  | append_singleton bs b ih =>
    obtain ⟨hbs, hb⟩ := h.of_snoc
    have hold := ih hbs
    rw [lastSigned_snoc]
    by_cases hm : m ≤ bs.length
    · rw [List.drop_append_of_le_length hm]
      simp only [List.mem_append, List.mem_singleton, or_and_right, exists_or, exists_eq_left,
        hold]
      by_cases ha : a ∈ b.signerAddrs
      · simp only [ha, or_true, if_true, hb, true_iff]
        omega
      · simp only [ha, or_false, if_false]
    · have hdrop : bs.drop m = [] := List.drop_eq_nil_of_le (not_le.mp hm).le
      have hdrop' : (bs ++ [b]).drop m = [] := List.drop_eq_nil_of_le (by simp; omega)
      rw [hdrop] at hold
      rw [hdrop']
      by_cases ha : a ∈ b.signerAddrs
      · rw [if_pos ha, hb]
        simp
        omega
      · rw [if_neg ha]
        exact hold

lemma lastSigned_le {bs : List Block} (h : Consecutive bs) (a : Addr) :
    (lastSigned bs a).toNat ≤ bs.length := by
  by_contra hlt
  obtain ⟨b, hb, -⟩ := (exists_signed_drop_iff h a bs.length).mpr (not_le.mp hlt)
  rw [List.drop_length] at hb
  exact absurd hb (by simp)

/-- The entries of an address that the genesis lists `n` times and that last signed at `l`. -/
def entryHeights (n : ℕ) (l : UInt64) : List UInt64 :=
  if n = 0 then (if l = 0 then [] else [l]) else l :: List.replicate (n - 1) 0

lemma raise_entryHeights {n : ℕ} {l h : UInt64} (hlt : l < h) :
    raise h (entryHeights n l) = entryHeights n h := by
  have hh : h ≠ 0 := by
    rintro rfl
    exact absurd hlt (UInt64.not_lt_zero)
  by_cases hn : n = 0
  · by_cases hl : l = 0
    · simp [entryHeights, hn, hl, hh, raise]
    · simp [entryHeights, hn, hl, hh, raise, hlt]
  · simp [entryHeights, hn, raise, hlt]

/-- No signer of the history was turned away because the map was full. -/
def AllRecorded (m : List LiveEntry) (bs : List Block) : Prop :=
  ∀ i b, bs[i]? = some b → ∀ a ∈ b.signerAddrs, heightsOf (liveAfter m (bs.take (i + 1))) a ≠ []

lemma allRecorded_nil (m : List LiveEntry) : AllRecorded m [] := by
  intro i b hb
  exact absurd hb (by simp)

lemma allRecorded_snoc {m : List LiveEntry} {bs : List Block} {b : Block} :
    AllRecorded m (bs ++ [b]) ↔
      AllRecorded m bs ∧ ∀ a ∈ b.signerAddrs, heightsOf (liveAfter m (bs ++ [b])) a ≠ [] := by
  constructor
  · intro h
    constructor
    · intro i x hx a ha
      have hi := (List.getElem?_eq_some_iff.mp hx).1
      have := h i x (by rw [List.getElem?_append_left hi]; exact hx) a ha
      rwa [List.take_append_of_le_length (by omega)] at this
    · intro a ha
      have := h bs.length b (by simp) a ha
      rwa [List.take_of_length_le (by simp)] at this
  · rintro ⟨hold, hnew⟩ i x hx a ha
    by_cases hi : i < bs.length
    · rw [List.getElem?_append_left hi] at hx
      rw [List.take_append_of_le_length (by omega)]
      exact hold i x hx a ha
    · rw [List.getElem?_append_right (not_lt.mp hi), List.getElem?_singleton] at hx
      split_ifs at hx with h0
      obtain rfl := Option.some.inj hx
      rw [List.take_of_length_le (by simp; omega)]
      exact hnew a ha

/-- **The entries of an address after a history.** -/
theorem heightsOf_liveAfter {m : List LiveEntry} {bs : List Block} {a : Addr} {n : ℕ}
    (hbs : Consecutive bs) (hrec : AllRecorded m bs) (hm : heightsOf m a = entryHeights n 0) :
    heightsOf (liveAfter m bs) a = entryHeights n (lastSigned bs a) := by
  induction bs using List.reverseRecOn with
  | nil => exact hm
  | append_singleton bs b ih =>
    obtain ⟨hcons, hb⟩ := hbs.of_snoc
    obtain ⟨hold, hnew⟩ := allRecorded_snoc.mp hrec
    have hle := lastSigned_le hcons a
    rw [lastSigned_snoc]
    split_ifs with ha
    · have hne := hnew a ha
      rw [liveAfter_snoc] at hne ⊢
      rw [heightsOf_liveRecordSigners_of_mem ha hne, ih hcons hold, raise_entryHeights]
      rw [UInt64.lt_iff_toNat_lt]
      omega
    · rw [liveAfter_snoc, heightsOf_liveRecordSigners_of_notMem ha, ih hcons hold]

/-! ### The window -/

/-- The address signed one of the last sixteen blocks. -/
def SignedRecently (bs : List Block) (a : Addr) : Prop :=
  ∃ b ∈ bs.drop (bs.length - 16), a ∈ b.signerAddrs

/-- The window in the natural numbers. -/
lemma liveIsWithinWindow_iff {height last : UInt64} :
    liveIsWithinWindow height last = true ↔
      if last = 0 then height.toNat < 16 else height.toNat - 16 < last.toNat := by
  have hw : acLivenessWindow.toNat = 16 := rfl
  have hl := last.toNat_lt
  rw [liveIsWithinWindow]
  by_cases h0 : last = 0
  · simp only [h0, true_and, if_true, UInt64.lt_iff_toNat_lt, hw]
    split_ifs with h <;> simp [h]
  · have hpos : last.toNat ≠ 0 := fun h => h0 (UInt64.toNat_inj.mp h)
    simp only [h0, false_and, if_false]
    by_cases hle : height ≤ last
    · rw [if_pos hle]
      rw [UInt64.le_iff_toNat_le] at hle
      simp
      omega
    · rw [if_neg hle]
      have hsub : (height - last).toNat = height.toNat - last.toNat :=
        UInt64.toNat_sub_of_le _ _ (UInt64.le_of_lt (UInt64.not_le.mp hle))
      rw [UInt64.le_iff_toNat_le] at hle
      rw [decide_eq_true_eq, UInt64.lt_iff_toNat_lt, hw, hsub]
      omega

/-- How many entries of an address are within the window: all of them in the first sixteen
blocks, otherwise the first one if the address signed recently. -/
theorem countP_entryHeights {height l : UInt64} {n : ℕ} :
    (entryHeights n l).countP (liveIsWithinWindow height) =
      if height.toNat < 16 ∧ 0 < n then n else if height.toNat - 16 < l.toNat then 1 else 0 := by
  have hzero : liveIsWithinWindow height 0 = decide (height.toNat < 16) := by
    rw [Bool.eq_iff_iff, liveIsWithinWindow_iff, if_pos rfl, decide_eq_true_eq]
  have hlast : l ≠ 0 → liveIsWithinWindow height l = decide (height.toNat - 16 < l.toNat) := by
    intro hl
    rw [Bool.eq_iff_iff, liveIsWithinWindow_iff, if_neg hl, decide_eq_true_eq]
  rw [entryHeights]
  by_cases hn : n = 0
  · have hnot : ¬ (height.toNat < 16 ∧ 0 < n) := by omega
    simp only [hn, if_true, hn ▸ hnot, if_false]
    by_cases hl : l = 0
    · simp [hl]
    · simp [hl, hlast hl, List.countP_cons]
  · have hpos : l ≠ 0 → 0 < l.toNat := fun hl =>
      Nat.pos_of_ne_zero fun h => hl (UInt64.toNat_inj.mp h)
    simp only [hn, if_false, List.countP_cons, List.countP_replicate, hzero, decide_eq_true_eq]
    by_cases hh : height.toNat < 16
    · have hfirst : liveIsWithinWindow height l = true := by
        by_cases hl : l = 0
        · rw [hl, hzero, decide_eq_true hh]
        · have := hpos hl
          rw [hlast hl, decide_eq_true (by omega)]
      simp only [hh, hfirst, if_true, true_and, Nat.pos_of_ne_zero hn]
      omega
    · by_cases hl : l = 0
      · simp [hl, hzero, hh]
      · simp [hlast hl, hh]

/-! ### The live weight -/

/-- An address whose entries count: it has an account with the minimum stake. -/
def countsInState (s : AcState) (a : Addr) : Bool :=
  (acStateGet s a).1 && !decide ((acStateGet s a).2.stake < acMinStakeUcrd)

/-- How often an address is counted. -/
lemma count_liveCounts (s : AcState) (height : UInt64) (m : List LiveEntry) (a : Addr) :
    ((m.filter (liveCounts s height)).map LiveEntry.addr).count a =
      if countsInState s a then (heightsOf m a).countP (liveIsWithinWindow height) else 0 := by
  induction m with
  | nil => simp [heightsOf]
  | cons e m ih =>
    have he : liveCounts s height e =
        (liveIsWithinWindow height e.lastSignHeight && countsInState s e.addr) := by
      rw [liveCounts, countsInState, Bool.and_assoc]
    rw [List.filter_cons, heightsOf_cons, he]
    by_cases ha : e.addr = a
    · rw [ha]
      cases hw : liveIsWithinWindow height e.lastSignHeight <;>
        cases hc : countsInState s a <;> simp [hc, hw, ha, ih]
    · cases hw : liveIsWithinWindow height e.lastSignHeight <;>
        cases hc : countsInState s e.addr <;> simp [ha, ih]

/-- **The live weight** depends on the map only through the number of entries within the
window. -/
theorem acChainLiveSqrtStake_congr {c d : Chain} (hstate : d.state = c.state)
    (hheight : d.height = c.height)
    (hcount : ∀ a, (heightsOf d.liveMap a).countP (liveIsWithinWindow c.height) =
      (heightsOf c.liveMap a).countP (liveIsWithinWindow c.height)) :
    acChainLiveSqrtStake d = acChainLiveSqrtStake c := by
  have hperm : ((d.liveMap.filter (liveCounts c.state c.height)).map LiveEntry.addr).Perm
      ((c.liveMap.filter (liveCounts c.state c.height)).map LiveEntry.addr) := by
    rw [List.perm_iff_count]
    intro a
    rw [count_liveCounts, count_liveCounts, hcount]
  have hempty : (d.liveMap.filter (liveCounts c.state c.height)).isEmpty =
      (c.liveMap.filter (liveCounts c.state c.height)).isEmpty := by
    have := hperm.length_eq
    rw [List.length_map, List.length_map] at this
    rw [Bool.eq_iff_iff, List.isEmpty_iff_length_eq_zero, List.isEmpty_iff_length_eq_zero, this]
  have hcomm : RightCommutative fun (sum : UInt64) (a : Addr) =>
      sum + acIsqrtU64 (acStateGet c.state a).2.stake :=
    ⟨fun x a b => by rw [UInt64.add_assoc, UInt64.add_comm (acIsqrtU64 _), UInt64.add_assoc]⟩
  have hsum := hperm.foldl_eq (f := fun (sum : UInt64) (a : Addr) =>
    sum + acIsqrtU64 (acStateGet c.state a).2.stake) 0
  rw [List.foldl_map, List.foldl_map] at hsum
  rw [acChainLiveSqrtStake, acChainLiveSqrtStake, hstate, hheight, hempty, hsum,
    acChainTotalSqrtStake, hstate, acChainTotalSqrtStake]

/-! ### Reachable chains -/

section Reachable

variable {P : Platform} {g : Genesis} {bs : List Block} {c : Chain}

/-- The genesis entries of an address. -/
lemma heightsOf_genesisLive (g : Genesis) (a : Addr) :
    heightsOf (genesisLive g) a = entryHeights (heightsOf (genesisLive g) a).length 0 := by
  have hrep : heightsOf (genesisLive g) a =
      List.replicate (heightsOf (genesisLive g) a).length 0 := by
    refine List.eq_replicate_iff.mpr ⟨rfl, fun x hx => ?_⟩
    obtain ⟨e, he, rfl⟩ := List.mem_map.mp hx
    have he := List.mem_of_mem_filter he
    rw [genesisLive_eq] at he
    obtain ⟨ga, -, rfl⟩ := List.mem_map.mp he
    rfl
  generalize (heightsOf (genesisLive g) a).length = n at hrep
  rw [hrep, entryHeights]
  cases n with
  | zero => rfl
  | succ n => rfl

/-- The entries of an address on a reachable chain. -/
lemma Reachable.heightsOf_liveMap (hP : P.MallocBounded) (h : Reachable P g bs c)
    (hrec : AllRecorded (genesisLive g) bs) (a : Addr) :
    heightsOf c.liveMap a =
      entryHeights (heightsOf (genesisLive g) a).length (lastSigned bs a) := by
  rw [h.live_eq hP]
  exact heightsOf_liveAfter (h.ledger hP).consecutive hrec (heightsOf_genesisLive g a)

end Reachable

end AgentChain
