import AgentChain.Store
import AgentChain.Nonces

/-!
# Registered names

Of all the ways in which a transaction changes the store, one reaches the name array: the body
of a REGISTER_NAME that finds its name free.  A name that is taken stays with its address,
through accepted blocks, through blocks that are executed and rolled back, and through failed
writes; the address is the sender of the first registration that was included.

The array is searched by name alone.  Nothing keeps a sender that owns a name from registering
another one, so an account has one name exactly as long as its owner does not do that.
-/

namespace AgentChain

open Trace

section Names

variable {P : Platform} {s : AcState} {tx : Tx} {slot baseFee : UInt64} {name : Bytes}

/-! ### One transaction -/

/-- The transaction will register the name: it is admitted, its body holds the name, its sender
can pay the fee and nobody has the name. -/
def RegistersName (s : AcState) (tx : Tx) (slot baseFee : UInt64) (name : Bytes) : Prop :=
  ∃ a, admitTx s tx slot baseFee = .ok a ∧ a.kind = .registerName ∧
    acBodyNameDecode tx.body = some name ∧ ¬ a.sender.balance < nameFee ∧
    acStateNameLookup s name = none

lemma RegistersName.free (h : RegistersName s tx slot baseFee name) :
    acStateNameLookup s name = none := by
  obtain ⟨-, -, -, -, -, hfree⟩ := h
  exact hfree

/-- The name in a body is valid. -/
lemma acNameValid_of_decode {body : Bytes} (h : acBodyNameDecode body = some name) :
    acNameValid name = true := by
  cases body with
  | nil => cases h
  | cons nl rest =>
    rw [acBodyNameDecode] at h
    split_ifs at h with h1 h2 h3
    exact Option.some.inj h ▸ h3

/-- A registration succeeds exactly for a valid name that is free. -/
lemma acStateNameRegister_isSome (addr : Addr) : (acStateNameRegister s name addr).isSome ↔
    acNameValid name = true ∧ acStateNameLookup s name = none := by
  have hlookup := acStateNameLookup_register s name addr name
  rw [acStateNameRegister] at hlookup ⊢
  by_cases hv : acNameValid name = true
  · by_cases hi : nameLookupIndex s.names name < 0
    · have hfree : acStateNameLookup s name = none := by
        rw [acStateNameLookup]
        exact if_pos hi
      simp [hv, hi, hfree]
    · -- the search has found the name, so that the lookup returns its address
      rw [dif_pos hv, dif_neg hi, Option.getD_none] at hlookup
      simp only [true_and, hv] at hlookup
      rw [dif_pos hv, dif_neg hi]
      simp only [Option.isSome_none, Bool.false_eq_true, hv, true_and, false_iff]
      intro hnone
      rw [if_pos hnone, hnone] at hlookup
      cases hlookup
  · simp [hv]

/-- A transaction that registers a name is applied, and the lookups change at this name alone. -/
lemma RegistersName.apply (h : RegistersName s tx slot baseFee name) :
    (acStateApplyTx P s tx slot baseFee).1 = .applied ∧
    ∀ other, acStateNameLookup (acStateApplyTx P s tx slot baseFee).2.2 other =
      if other = name then some tx.sender else acStateNameLookup s other := by
  obtain ⟨a, ha, hkind, hbody, hfee, hfree⟩ := h
  have hv := acNameValid_of_decode hbody
  obtain ⟨t, ht⟩ := Option.isSome_iff_exists.mp
    ((acStateNameRegister_isSome tx.sender).mpr ⟨hv, hfree⟩)
  have hout : applyBody P s tx slot a = ⟨t, { a.sender with
      balance := a.sender.balance - nameFee }, a.neededGas, nameFee, none⟩ := by
    simp only [applyBody, hkind, applyRegisterName, hbody, if_neg hfee, ht]
  rw [acStateApplyTx, ha]
  dsimp only
  rw [hout]
  refine ⟨rfl, fun other => ?_⟩
  have hlookup := acStateNameLookup_register s name tx.sender other
  rw [ht, Option.getD_some] at hlookup
  show acStateNameLookup t other = _
  rw [hlookup]
  simp only [hv, hfree, and_true]

/-- Any other transaction leaves the names alone, and if it is a REGISTER_NAME its body fails. -/
lemma names_of_not_registersName (h : ∀ name, ¬ RegistersName s tx slot baseFee name) :
    (acStateApplyTx P s tx slot baseFee).2.2.names = s.names ∧
    (TxKind.ofCode tx.kind = some .registerName →
      (acStateApplyTx P s tx slot baseFee).1 ≠ .applied) := by
  rcases acStateApplyTx_cases (P := P) s tx slot baseFee with ⟨err, -, he⟩ | ⟨a, ha, he⟩
  · rw [he]
    exact ⟨rfl, fun _ => nofun⟩
  · obtain ⟨igas, value, hadm⟩ := admitTx_admission ha
    rw [he]
    rcases applyBody_cases (P := P) s tx slot a with hfail | hdone
    · have hnames : (applyBody P s tx slot a).state.names = s.names := by rw [hfail.state_eq]
      refine ⟨hnames, fun _ => ?_⟩
      rw [chargeTx]
      dsimp only
      rw [if_pos hfail.err_some]
      decide
    · generalize applyBody P s tx slot a = o at hdone ⊢
      have hother : a.kind ≠ .registerName → TxKind.ofCode tx.kind = some .registerName →
          (chargeTx tx baseFee o).1 ≠ .applied := by
        intro hne hk
        rw [hadm.kind_eq, Option.some.injEq] at hk
        exact absurd hk hne
      cases hdone with
      | registerName name t hkind hbody hle hnew =>
        have hfree := ((acStateNameRegister_isSome _).mp (Option.isSome_of_mem hnew)).2
        exact absurd ⟨a, ha, hkind, hbody, hle, hfree⟩ (h name)
      | transfer b hkind => exact ⟨rfl, hother (by rw [hkind]; decide)⟩
      | stakeBond amount hkind => exact ⟨rfl, hother (by rw [hkind]; decide)⟩
      | stakeUnbond amount unbondAt hkind => exact ⟨rfl, hother (by rw [hkind]; decide)⟩
      | slashEvidence b hkind => exact ⟨rfl, hother (by rw [hkind]; decide)⟩

lemma acStateNameLookup_of_names_nil (h : s.names = []) (name : Bytes) :
    acStateNameLookup s name = none :=
  (acStateNameLookup_of_notMem (by simp [h])).2

lemma acStateNameLookup_congr {t : AcState} (h : t.names = s.names) (name : Bytes) :
    acStateNameLookup t name = acStateNameLookup s name := by
  rw [acStateNameLookup, acStateNameLookup, h]

/-! ### The first registration -/

/-- An included transaction with its return code is a registration of the name. -/
def isRegistration (name : Bytes) (e : Tx × ApplyRc) : Bool :=
  decide (TxKind.ofCode e.1.kind = some .registerName ∧ acBodyNameDecode e.1.body = some name ∧
    e.2 = .applied)

/-- The sender of the first registration of a name. -/
def firstRegistrant (name : Bytes) (log : List (Tx × ApplyRc)) : Option Addr :=
  (log.find? (isRegistration name)).map fun e => e.1.sender

lemma firstRegistrant_append (name : Bytes) (log log' : List (Tx × ApplyRc)) :
    firstRegistrant name (log ++ log') =
      (firstRegistrant name log).or (firstRegistrant name log') := by
  rw [firstRegistrant, List.find?_append, Option.map_or]
  rfl

lemma firstRegistrant_cons (name : Bytes) (e : Tx × ApplyRc) (log : List (Tx × ApplyRc)) :
    firstRegistrant name (e :: log) =
      (firstRegistrant name [e]).or (firstRegistrant name log) :=
  firstRegistrant_append name [e] log

/-- **One transaction** against the names: a name that is taken stays, a name that is free is
taken by a registration. -/
lemma acStateNameLookup_applyTx (s : AcState) (tx : Tx) (slot baseFee : UInt64) (name : Bytes) :
    acStateNameLookup (acStateApplyTx P s tx slot baseFee).2.2 name =
      (acStateNameLookup s name).or
        (firstRegistrant name [(tx, (acStateApplyTx P s tx slot baseFee).1)]) := by
  by_cases hreg : ∃ name', RegistersName s tx slot baseFee name'
  · obtain ⟨name', hreg⟩ := hreg
    obtain ⟨hrc, hlookup⟩ := hreg.apply (P := P)
    have hfree := hreg.free
    obtain ⟨a, ha, hkind, hbody, -, -⟩ := hreg
    obtain ⟨igas, value, hadm⟩ := admitTx_admission ha
    have hcode := hadm.kind_eq
    rw [hkind] at hcode
    rw [hlookup, hrc]
    by_cases hname : name = name'
    · subst hname
      simp [firstRegistrant, isRegistration, hcode, hbody, hfree]
    · have hne : ¬ acBodyNameDecode tx.body = some name := by
        rw [hbody, Option.some.injEq]
        exact fun h => hname h.symm
      simp [firstRegistrant, isRegistration, hne, hname]
  · push Not at hreg
    obtain ⟨hnames, hrc⟩ := names_of_not_registersName (P := P) hreg
    have hno : isRegistration name (tx, (acStateApplyTx P s tx slot baseFee).1) = false := by
      simp only [isRegistration, decide_eq_false_iff_not]
      exact fun h => hrc h.1 h.2.2
    rw [acStateNameLookup_congr hnames, firstRegistrant, List.find?_singleton, hno]
    simp

variable (P) in
/-- The transactions of a block with their return codes. -/
def txLog (slot baseFee : UInt64) : AcState → List Tx → List (Tx × ApplyRc)
  | _, [] => []
  | s, tx :: txs =>
      let r := acStateApplyTx P s tx slot baseFee
      (tx, r.1) :: txLog slot baseFee r.2.2 txs

/-- The loop over the transactions of a block that passes. -/
lemma acStateNameLookup_applyTxs {txs : List Tx} {l : TxLoop}
    (hok : (applyTxs P slot baseFee txs l).ok = true) (name : Bytes) :
    acStateNameLookup (applyTxs P slot baseFee txs l).state name =
      (acStateNameLookup l.state name).or
        (firstRegistrant name (txLog P slot baseFee l.state txs)) := by
  induction txs generalizing l with
  | nil => simp [applyTxs, txLog, firstRegistrant]
  | cons tx txs ih =>
    rw [applyTxs] at hok ⊢
    dsimp only at hok ⊢
    split_ifs at hok ⊢ with hsig hinc hgas
    rw [ih hok, acStateNameLookup_applyTx, Option.or_assoc, ← firstRegistrant_cons, txLog]

/-- **One block** that passes the checks. -/
lemma acStateNameLookup_postState {b : Block} (hok : (runTxs P s b).ok = true) (name : Bytes) :
    acStateNameLookup (postState P s b) name = (acStateNameLookup s name).or
      (firstRegistrant name (txLog P b.header.slot b.header.baseFee s b.txs)) :=
  acStateNameLookup_applyTxs (l := ⟨true, 0, 0, s⟩) hok name

/-! ### Runs -/

/-- A call of `ac_chain_accept_block` at any clock and with any outcome of its writes, with
what it returned. -/
inductive AcceptCall (P : Platform) : Chain → List (Block × AcceptRc) → Chain → Prop
  | call (now : UInt64) (w : Writes) (c : Chain) (b : Block) :
      AcceptCall P c [(b, (acChainAcceptBlock P now w c b).1)] (acChainAcceptBlock P now w c b).2

/-- The blocks that were accepted. -/
def acceptedBlocks (calls : List (Block × AcceptRc)) : List Block :=
  (calls.filter fun e => e.2 = .ok).map Prod.fst

variable (P) in
/-- The blocks of a list, each with the state before it. -/
def blockSteps : AcState → List Block → List (AcState × Block)
  | _, [] => []
  | s, b :: bs => (s, b) :: blockSteps (postState P s b) bs

lemma blockSteps_concat (s : AcState) (bs : List Block) (b : Block) :
    blockSteps P s (bs ++ [b]) = blockSteps P s bs ++ [(replay P s bs, b)] := by
  induction bs generalizing s with
  | nil => rfl
  | cons b' bs ih =>
    rw [List.cons_append, blockSteps, ih, blockSteps]
    rfl

variable (P) in
/-- The transactions of a list of blocks, executed one after the other, with their return
codes. -/
def blocksLog (s : AcState) (bs : List Block) : List (Tx × ApplyRc) :=
  (blockSteps P s bs).flatMap fun x => txLog P x.2.header.slot x.2.header.baseFee x.1 x.2.txs

lemma blocksLog_concat (s : AcState) (bs : List Block) (b : Block) :
    blocksLog P s (bs ++ [b]) = blocksLog P s bs ++
      txLog P b.header.slot b.header.baseFee (replay P s bs) b.txs := by
  rw [blocksLog, blockSteps_concat, List.flatMap_append, List.flatMap_singleton]
  rfl

/-- No call takes a name away from its address. -/
lemma AcceptCall.lookup (hP : P.MallocBounded) {c d : Chain} {new : List (Block × AcceptRc)}
    (h : AcceptCall P c new d) {addr : Addr} (hname : acStateNameLookup c.state name = some addr) :
    acStateNameLookup d.state name = some addr := by
  cases h with
  | call now w c b =>
    rcases acChainAcceptBlock_state hP now w c b with hs | ⟨hpass, hs⟩
    · rw [hs, hname]
    · rw [hs, acStateNameLookup_postState hpass.txs_ok, hname, Option.some_or]

/-- No run takes a name away from its address. -/
lemma lookup_of_run (hP : P.MallocBounded) {c d : Chain} {calls : List (Block × AcceptRc)}
    (hrun : Run (AcceptCall P) c calls d) {addr : Addr}
    (hname : acStateNameLookup c.state name = some addr) :
    acStateNameLookup d.state name = some addr :=
  hrun.invariant (I := fun _ d => acStateNameLookup d.state name = some addr) hname
    fun _ _ _ _ ih hs => hs.lookup hP ih

/-- The state and the names after calls that accept or reject, in terms of the blocks that were
accepted since a state without names. -/
structure NameLog (P : Platform) (s₀ : AcState) (calls : List (Block × AcceptRc)) (c : Chain) :
    Prop where
  state_eq : c.state = replay P s₀ (acceptedBlocks calls)
  lookup_eq : ∀ name, acStateNameLookup c.state name =
    firstRegistrant name (blocksLog P s₀ (acceptedBlocks calls))

/-- A call that accepts or rejects keeps the log. -/
lemma NameLog.call (hP : P.MallocBounded) {s₀ : AcState} {calls : List (Block × AcceptRc)}
    {c : Chain} (h : NameLog P s₀ calls c) (now : UInt64) (w : Writes) (b : Block)
    (hrc : (acChainAcceptBlock P now w c b).1 ≠ .internal) :
    NameLog P s₀ (calls ++ [(b, (acChainAcceptBlock P now w c b).1)])
      (acChainAcceptBlock P now w c b).2 := by
  by_cases hok : (acChainAcceptBlock P now w c b).1 = .ok
  · obtain ⟨hpass, -, -, -, buf, -, heq⟩ := acChainAcceptBlock_ok hP hok
    have hblocks : acceptedBlocks (calls ++ [(b, (acChainAcceptBlock P now w c b).1)]) =
        acceptedBlocks calls ++ [b] := by
      simp [acceptedBlocks, hok]
    have hstate : (acChainAcceptBlock P now w c b).2.state = postState P c.state b := by
      rw [heq]
      rfl
    constructor
    · rw [hblocks, hstate, replay_snoc, ← h.state_eq]
    · intro name
      rw [hblocks, hstate, acStateNameLookup_postState hpass.txs_ok, blocksLog_concat,
        firstRegistrant_append, ← h.state_eq, ← h.lookup_eq]
  · have hblocks : acceptedBlocks (calls ++ [(b, (acChainAcceptBlock P now w c b).1)]) =
        acceptedBlocks calls := by
      simp [acceptedBlocks, hok]
    have hstate := (acChainAcceptBlock_turnedAway hP hok fun hi => absurd hi hrc).same.state_eq
    exact ⟨by rw [hblocks, hstate, h.state_eq], fun name => by rw [hblocks, hstate, h.lookup_eq]⟩

/-- The genesis has no names. -/
lemma genesisState_names (g : Genesis) : (genesisState g).names = [] := by
  have hfold : ∀ (l : List GenesisAccount) (s : AcState),
      (l.foldl (fun s ga => acStateSet s ga.toAccount) s).names = s.names := by
    intro l
    induction l with
    | nil => exact fun s => rfl
    | cons ga l ih => exact fun s => ih _
  exact hfold g.accounts _

/-- **Names are bound for life.**  In every run of calls from a genesis: whatever the calls
return, a name that maps to an address does so in every later state, and registered names are
valid; as long as the calls accept or reject, a name maps to the sender of the first included
REGISTER_NAME for it whose body succeeded, and to nothing without one. -/
theorem names_bound_for_life (hP : P.MallocBounded) {g : Genesis} {w : Writes} {dir : DataDir}
    {c₀ c d : Chain} {calls later : List (Block × AcceptRc)} (hdir : dir.metaBin = none)
    (hopen : acChainOpen P w dir (some g) = some c₀) (hrun : Run (AcceptCall P) c₀ calls c)
    (hlater : Run (AcceptCall P) c later d) :
    (∀ name addr, acStateNameLookup c.state name = some addr →
      acNameValid name = true ∧ acStateNameLookup d.state name = some addr) ∧
    ((∀ e ∈ calls, e.2 ≠ .internal) → ∀ name, acStateNameLookup c.state name =
      firstRegistrant name (blocksLog P (genesisState g) (acceptedBlocks calls))) := by
  refine ⟨fun name addr hname => ⟨?_, lookup_of_run hP hlater hname⟩, fun hcalls => ?_⟩
  · exact c.state.names_valid _ (acStateNameLookup_eq_some.mp hname)
  · refine NameLog.lookup_eq (hrun.invariant
      (I := fun calls c => (∀ e ∈ calls, e.2 ≠ .internal) → NameLog P (genesisState g) calls c)
      ?_ ?_ hcalls)
    · obtain ⟨buf, -, rfl⟩ := acChainOpen_genesis hdir hopen
      exact fun _ => ⟨rfl, acStateNameLookup_of_names_nil (genesisState_names g)⟩
    · intro calls c new d ih hs hne
      cases hs with
      | call now w c b =>
        refine (ih fun e he => hne e (List.mem_append_left _ he)).call hP now w b ?_
        exact hne _ (List.mem_append_right _ (List.mem_singleton_self _))

/-- A REGISTER_NAME transaction of the second account. -/
def registerTx (nonce : UInt64) (name : Bytes) (hname : name.length < 512) : Tx :=
  signTx reference ⟨acTxVersion, 1, 0x04, (referenceKey 2).pk, nonce, 1000, 0, 1000000,
    UInt8.ofNat name.length :: name, [], ByteArr.fill 64 0, hname, nil_memo_le⟩ (referenceKey 2)

/-- The first block on the genesis, with one registration. -/
def nameBlock : Block :=
  firstBlock mintGenesis ⟨[registerTx 0 (ascii "alice") (by decide)], by decide⟩

/-- A run that accepts the registration and then gets the block again. -/
theorem names_bound_for_life_alice :
    acStateNameLookup (acChainAcceptBlock reference 100000 .all (acChainAcceptBlock reference 100000
      .all (openedChain mintGenesis) nameBlock).2 nameBlock).2.state (ascii "alice") =
        some (referenceKey 2).pk ∧
    firstRegistrant (ascii "alice") (blocksLog reference (genesisState mintGenesis) [nameBlock]) =
      some (referenceKey 2).pk := by
  have hrun : (acChainAcceptBlock reference 100000 .all (openedChain mintGenesis)
        nameBlock).1 = .ok ∧
      acStateNameLookup (acChainAcceptBlock reference 100000 .all (openedChain mintGenesis)
        nameBlock).2.state (ascii "alice") = some (referenceKey 2).pk := by
    decide +kernel
  obtain ⟨hok, hname⟩ := hrun
  have hcall := AcceptCall.call (P := reference) 100000 .all (openedChain mintGenesis) nameBlock
  rw [hok] at hcall
  have hagain := AcceptCall.call (P := reference) 100000 .all
    (acChainAcceptBlock reference 100000 .all (openedChain mintGenesis) nameBlock).2 nameBlock
  have h := names_bound_for_life reference_mallocBounded rfl
    (acChainOpen_openedChain (g := mintGenesis) (by decide +kernel)) (.single hcall)
    (.single hagain)
  have hfirst := h.2 (by simp) (ascii "alice")
  exact ⟨(h.1 _ _ hname).2, hfirst.symm.trans hname⟩

/-! ### One name per account -/

/-- A call of `ac_state_apply_tx`. -/
structure TxCall where
  tx : Tx
  slot : UInt64
  baseFee : UInt64

variable (P) in
/-- The state after a sequence of calls of `ac_state_apply_tx`. -/
def applyCalls (s : AcState) (calls : List TxCall) : AcState :=
  calls.foldl (fun s k => (acStateApplyTx P s k.tx k.slot k.baseFee).2.2) s

/-- No address is the target of two different names. -/
def OneNamePerAccount (s : AcState) : Prop :=
  ∀ name name' addr, acStateNameLookup s name = some addr →
    acStateNameLookup s name' = some addr → name = name'

/-- The call registers a name for a sender that owns one already. -/
def RegistersSecondName (s : AcState) (k : TxCall) : Prop :=
  (∃ name, RegistersName s k.tx k.slot k.baseFee name) ∧
    ∃ name, acStateNameLookup s name = some k.tx.sender

/-- **One call** keeps the rule unless it registers a second name. -/
lemma oneNamePerAccount_applyTx (h : OneNamePerAccount s) (k : TxCall) :
    OneNamePerAccount (acStateApplyTx P s k.tx k.slot k.baseFee).2.2 ↔
      ¬ RegistersSecondName s k := by
  by_cases hreg : ∃ name, RegistersName s k.tx k.slot k.baseFee name
  · obtain ⟨name, hname⟩ := hreg
    have hlookup := (hname.apply (P := P)).2
    constructor
    · rintro hone ⟨-, old, hold⟩
      have hne : old ≠ name := by
        rintro rfl
        rw [hname.free] at hold
        cases hold
      exact hne (hone old name k.tx.sender (by rw [hlookup, if_neg hne, hold])
        (by rw [hlookup, if_pos rfl]))
    · intro hno x y addr hx hy
      have hnone : ∀ z, acStateNameLookup s z ≠ some k.tx.sender := fun z hz =>
        hno ⟨⟨name, hname⟩, z, hz⟩
      rw [hlookup] at hx hy
      -- the new name belongs to the sender, which has no other
      split_ifs at hx hy with hxn hyn hyn
      · rw [hxn, hyn]
      · exact absurd (hx ▸ hy) (hnone y)
      · exact absurd (hy ▸ hx) (hnone x)
      · exact h x y addr hx hy
  · push Not at hreg
    have hnames := (names_of_not_registersName (P := P) hreg).1
    refine ⟨fun _ hsecond => absurd hsecond.1 (by simpa using hreg), fun _ x y addr hx hy => ?_⟩
    rw [acStateNameLookup_congr hnames] at hx hy
    exact h x y addr hx hy

/-- **One name per account.**  From a state without names, every state that a sequence of calls
goes through obeys the rule exactly when no call registers a name for a sender that owns one
at that moment. -/
theorem one_name_per_account_iff (hs : s.names = []) (calls : List TxCall) :
    (∀ done, done <+: calls → OneNamePerAccount (applyCalls P s done)) ↔
      ∀ done k, done ++ [k] <+: calls → ¬ RegistersSecondName (applyCalls P s done) k := by
  have hinit : OneNamePerAccount s := by
    intro name name' addr hname
    rw [acStateNameLookup_of_names_nil hs] at hname
    cases hname
  have hnext : ∀ done k, applyCalls P s (done ++ [k]) =
      (acStateApplyTx P (applyCalls P s done) k.tx k.slot k.baseFee).2.2 := by
    intro done k
    rw [applyCalls, List.foldl_append]
    rfl
  constructor
  · intro hall done k hpre
    have hdone := hall done ((List.prefix_append done [k]).trans hpre)
    have hk := hall _ hpre
    rw [hnext] at hk
    exact (oneNamePerAccount_applyTx hdone k).mp hk
  · intro hno done
    induction done using List.reverseRecOn with
    | nil => exact fun _ => hinit
    | append_singleton done k ih =>
      intro hpre
      have hdone := ih ((List.prefix_append done [k]).trans hpre)
      rw [hnext]
      exact (oneNamePerAccount_applyTx hdone k).mpr (hno done k hpre)

/-- The rule is kept by a sender that registers one name. -/
theorem one_name_per_account_iff_alice :
    OneNamePerAccount (applyCalls reference (genesisState mintGenesis)
      [⟨registerTx 0 (ascii "alice") (by decide), 1, 10⟩]) := by
  refine (one_name_per_account_iff (genesisState_names mintGenesis) _).mpr ?_ _ (List.prefix_rfl)
  intro done k hpre
  have hlen := hpre.length_le
  rw [List.length_append, List.length_singleton, List.length_singleton] at hlen
  obtain rfl : done = [] := List.length_eq_zero_iff.mp (by omega)
  rintro ⟨-, name, hname⟩
  rw [show applyCalls reference (genesisState mintGenesis) [] = genesisState mintGenesis from rfl,
    acStateNameLookup_of_names_nil (genesisState_names mintGenesis)] at hname
  cases hname

/-- **Two names of one account.**  Two registrations of one sender both succeed. -/
theorem one_sender_two_names :
    let s := applyCalls reference (genesisState mintGenesis)
      [⟨registerTx 0 (ascii "alice") (by decide), 1, 10⟩,
        ⟨registerTx 1 (ascii "bob") (by decide), 1, 10⟩]
    acStateNameLookup s (ascii "alice") = some (referenceKey 2).pk ∧
    acStateNameLookup s (ascii "bob") = some (referenceKey 2).pk := by
  decide +kernel

end Names

end AgentChain
