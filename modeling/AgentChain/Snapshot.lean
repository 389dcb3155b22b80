import AgentChain.State

/-!
# State snapshots

`ac_state_serialize` writes the whole state into one buffer and `ac_state_deserialize`
reads it back.  The same bytes are the file `state.bin` and the copy from which a rejected
block is rolled back.  The two entry counts are written as 32-bit integers, so a state comes
back only when it has fewer than `2 ^ 32` accounts and names; a snapshot of a larger state
would not fit in memory (`acStateDeserialize_serialize`).
-/

namespace AgentChain

open SortedArray

/-! ### Writing -/

/-- The record of an account in a snapshot. -/
def accountBytes (a : Account) : Bytes :=
  a.addr.bytes ++ acBe64 a.balance ++ acBe64 a.nonce ++ acBe64 a.stake ++ acBe64 a.unbondAt

/-- The record of a name in a snapshot. -/
def nameBytes (e : NameEntry) : Bytes :=
  acBe8 (UInt8.ofNat e.name.length) ++ e.name ++ e.addr.bytes

/-- `STATE_MAGIC` -/
def stateMagic : Bytes := ascii "AGCH:STATESNAP:v1"

/-- `STATE_VERSION` -/
def stateVersion : UInt8 := 1

/-- The size that `ac_state_serialize` allocates. -/
def snapshotCap (s : AcState) : ℕ :=
  stateMagic.length + 1 + 8 + 4 + 4 + s.accounts.length * (32 + 4 * 8) +
    s.names.length * (1 + acNameMaxLen + 32)

/-- The bytes that `ac_state_serialize` writes. -/
def stateBytes (s : AcState) : Bytes :=
  stateMagic ++ acBe8 stateVersion ++ acBe64 s.chainId ++
    acBe32 (UInt32.ofNat s.accounts.length) ++ acBe32 (UInt32.ofNat s.names.length) ++
    s.accounts.flatMap accountBytes ++ s.names.flatMap nameBytes

/-- `ac_state_serialize`; `none` when the buffer is not granted. -/
def acStateSerialize (P : Platform) (s : AcState) : Option Bytes :=
  if P.malloc (snapshotCap s) then some (stateBytes s) else none

/-! ### Reading -/

/-- One round of the account loop of `ac_state_deserialize`. -/
def readAccount (rest : Bytes) : Option (Account × Bytes) :=
  if rest.length < 32 + 32 then none
  else
    let addr := rgetArr 32 ⟨rest, false⟩
    let balance := rgetU64 addr.2
    let nonce := rgetU64 balance.2
    let stake := rgetU64 nonce.2
    let unbondAt := rgetU64 stake.2
    some (⟨addr.1, balance.1, nonce.1, stake.1, unbondAt.1⟩, unbondAt.2.rest)

/-- One round of the name loop of `ac_state_deserialize`. -/
def readName (rest : Bytes) : Option (NameEntry × Bytes) :=
  if rest.length < 1 then none
  else
    let nl := rgetU8 ⟨rest, false⟩
    if nl.1.toNat < acNameMinLen ∨ acNameMaxLen < nl.1.toNat then none
    else if nl.2.rest.length < nl.1.toNat + 32 then none
    else
      let name := rget nl.1.toNat nl.2
      let addr := rgetArr 32 name.2
      if acNameValid name.1 then some (⟨name.1, addr.1⟩, addr.2.rest) else none

lemma readName_valid (rest : Bytes) (e : NameEntry) (rest' : Bytes)
    (h : readName rest = some (e, rest')) : acNameValid e.name = true := by
  simp only [readName] at h
  split_ifs at h with _ _ _ hv
  simp only [Option.some.injEq, Prod.mk.injEq] at h
  rw [← h.1]
  exact hv

/-- The account loop. -/
def readAccounts (n : ℕ) (rest : Bytes) : Option (List Account × Bytes) :=
  readSorted readAccount Account.addr acAddrCmp n none rest

/-- The name loop. -/
def readNames (n : ℕ) (rest : Bytes) : Option (List NameEntry × Bytes) :=
  readSorted readName NameEntry.name nameCmp n none rest

/-- The part of `ac_state_deserialize` behind the fixed fields.  The old arrays are gone by
then; an array counts as empty until its loop has finished. -/
def deserializeEntries (chainId : UInt64) (nacc nname : ℕ) (rest : Bytes) : Bool × AcState :=
  match hacc : readAccounts nacc rest with
  | none => (false, acStateNew chainId)
  | some accs =>
      match hname : readNames nname accs.2 with
      | none => (false, { acStateNew chainId with
          accounts := accs.1, accounts_sorted := (readSorted_sorted hacc).1 })
      | some names =>
          (names.2.isEmpty, {
            chainId := chainId
            accounts := accs.1
            names := names.1
            accounts_sorted := (readSorted_sorted hacc).1
            names_sorted := (readSorted_sorted hname).1
            names_valid := readSorted_forall readName_valid hname })

/-- `ac_state_deserialize`: whether it succeeds, and the state it leaves. -/
def acStateDeserialize (s : AcState) (buf : Bytes) : Bool × AcState :=
  if buf.length < stateMagic.length + 17 then (false, s)
  else if memcmp (buf.take stateMagic.length) stateMagic ≠ .eq then (false, s)
  else
    let version := rgetU8 ⟨buf.drop stateMagic.length, false⟩
    if version.1 ≠ stateVersion then (false, s)
    else
      let cid := rgetU64 version.2
      if cid.1 ≠ s.chainId then (false, s)
      else
        let nacc := rgetU32 cid.2
        let nname := rgetU32 nacc.2
        deserializeEntries s.chainId nacc.1.toNat nname.1.toNat nname.2.rest

/-! ### The round trip -/

lemma readAccount_append (a : Account) (rest : Bytes) :
    readAccount (accountBytes a ++ rest) = some (a, rest) := by
  have hlen : (accountBytes a).length = 64 := by simp [accountBytes, acBe64]
  rw [readAccount, if_neg (by rw [List.length_append, hlen]; omega)]
  simp [accountBytes, acBe64]

lemma readName_append (e : NameEntry) (he : acNameValid e.name = true) (rest : Bytes) :
    readName (nameBytes e ++ rest) = some (e, rest) := by
  have hrange : acNameMinLen ≤ e.name.length ∧ e.name.length ≤ acNameMaxLen := by
    simp only [acNameValid, Bool.and_eq_true, decide_eq_true_eq] at he
    exact he.1
  have hmax : acNameMaxLen < 256 := by decide
  have hnl : (UInt8.ofNat e.name.length).toNat = e.name.length :=
    UInt8.toNat_ofNat_of_lt' (lt_of_le_of_lt hrange.2 hmax)
  have hpos : ¬ (nameBytes e ++ rest).length < 1 := by simp [nameBytes, acBe8]
  rw [readName, if_neg hpos]
  -- the length byte is read before its value is put in place of the name's length
  simp only [nameBytes, acBe8, List.append_assoc, rgetU8_append]
  simp only [hnl, rget_append _ _ rfl, rgetArr_append, he, if_true]
  rw [if_neg (by omega), if_neg (by simp)]

/-- The two counts of a state that `ac_state_serialize` writes without loss. -/
structure AcState.Countable (s : AcState) : Prop where
  accounts_lt : s.accounts.length < 2 ^ 32
  names_lt : s.names.length < 2 ^ 32

lemma deserializeEntries_append (s : AcState) :
    deserializeEntries s.chainId s.accounts.length s.names.length
      (s.accounts.flatMap accountBytes ++ s.names.flatMap nameBytes) = (true, s) := by
  have hacc : readAccounts s.accounts.length
      (s.accounts.flatMap accountBytes ++ s.names.flatMap nameBytes) =
        some (s.accounts, s.names.flatMap nameBytes) :=
    readSorted_flatMap s.accounts_sorted (fun a _ => readAccount_append a) none (by simp) _
  have hname : readNames s.names.length (s.names.flatMap nameBytes) = some (s.names, []) := by
    have := readSorted_flatMap s.names_sorted
      (fun e he => readName_append e (s.names_valid e he)) none (by simp) []
    rwa [List.append_nil] at this
  rw [deserializeEntries]
  split
  · rename_i h
    rw [hacc] at h
    exact absurd h (by simp)
  · rename_i accs h
    rw [hacc, Option.some.injEq] at h
    subst h
    split
    · rename_i h
      rw [hname] at h
      exact absurd h (by simp)
    · rename_i names h
      rw [hname, Option.some.injEq] at h
      subst h
      rfl

/-- A snapshot is read back into any state of the same chain. -/
theorem acStateDeserialize_stateBytes {s t : AcState} (hs : s.Countable)
    (hc : t.chainId = s.chainId) : acStateDeserialize t (stateBytes s) = (true, s) := by
  have ha : (UInt32.ofNat s.accounts.length).toNat = s.accounts.length :=
    UInt32.toNat_ofNat_of_lt' hs.accounts_lt
  have hn : (UInt32.ofNat s.names.length).toNat = s.names.length :=
    UInt32.toNat_ofNat_of_lt' hs.names_lt
  have hflat : stateBytes s = stateMagic ++ (acBe8 stateVersion ++ (acBe64 s.chainId ++
      (acBe32 (UInt32.ofNat s.accounts.length) ++ (acBe32 (UInt32.ofNat s.names.length) ++
      (s.accounts.flatMap accountBytes ++ s.names.flatMap nameBytes))))) := by
    simp [stateBytes]
  have hlen : ¬ (stateBytes s).length < stateMagic.length + 17 := by
    simp only [hflat, List.length_append, acBe8, acBe32, acBe64, length_beEncode]
    omega
  have hmagic : memcmp stateMagic stateMagic = .eq := Std.ReflOrd.compare_self (α := Bytes)
  rw [acStateDeserialize, if_neg hlen, hflat, List.take_left, List.drop_left,
    if_neg (not_not.mpr hmagic)]
  simp only [acBe8, acBe32, acBe64, rgetU8_append, rgetU64_append, rgetU32_append, hc,
    ne_eq, not_true_eq_false, if_false]
  rw [ha, hn]
  exact deserializeEntries_append s

/-- A snapshot that was granted its buffer counts without loss. -/
lemma countable_of_serialize {P : Platform} (hP : P.MallocBounded) {s : AcState} {buf : Bytes}
    (h : acStateSerialize P s = some buf) : s.Countable ∧ buf = stateBytes s := by
  rw [acStateSerialize] at h
  split_ifs at h with hm
  have hcap : snapshotCap s < 2 ^ 38 := by
    by_contra hge
    rw [hP _ (not_lt.mp hge)] at hm
    exact absurd hm (by decide)
  have hname : acNameMaxLen = 32 := rfl
  rw [snapshotCap, hname] at hcap
  rw [Option.some.injEq] at h
  exact ⟨⟨by omega, by omega⟩, h.symm⟩

/-- **Rolling back to a snapshot restores the state.** -/
theorem acStateDeserialize_serialize {P : Platform} (hP : P.MallocBounded) {s t : AcState}
    {buf : Bytes} (h : acStateSerialize P s = some buf) (hc : t.chainId = s.chainId) :
    acStateDeserialize t buf = (true, s) := by
  obtain ⟨hs, rfl⟩ := countable_of_serialize hP h
  exact acStateDeserialize_stateBytes hs hc

/-! ### Nothing else is accepted -/

lemma exists_acBe8_append {bs : Bytes} (h : 1 ≤ bs.length) :
    ∃ (v : UInt8) (rest : Bytes), bs = acBe8 v ++ rest := by
  obtain ⟨v, hv, rest, rfl⟩ := exists_be_append h
  exact ⟨UInt8.ofNat v, rest, by rw [acBe8, UInt8.toNat_ofNat_of_lt' hv]⟩

lemma exists_acBe32_append {bs : Bytes} (h : 4 ≤ bs.length) :
    ∃ (v : UInt32) (rest : Bytes), bs = acBe32 v ++ rest := by
  obtain ⟨v, hv, rest, rfl⟩ := exists_be_append h
  exact ⟨UInt32.ofNat v, rest, by rw [acBe32, UInt32.toNat_ofNat_of_lt' hv]⟩

lemma exists_acBe64_append {bs : Bytes} (h : 8 ≤ bs.length) :
    ∃ (v : UInt64) (rest : Bytes), bs = acBe64 v ++ rest := by
  obtain ⟨v, hv, rest, rfl⟩ := exists_be_append h
  exact ⟨UInt64.ofNat v, rest, by rw [acBe64, UInt64.toNat_ofNat_of_lt' hv]⟩

/-- A round of the account loop has consumed the record of its account. -/
lemma readAccount_enc (rest : Bytes) (a : Account) (rest' : Bytes)
    (h : readAccount rest = some (a, rest')) : rest = accountBytes a ++ rest' := by
  have hlen : 64 ≤ rest.length := by
    by_contra hlt
    rw [readAccount, if_pos (by omega)] at h
    cases h
  obtain ⟨addr, r₁, rfl⟩ := exists_arr_append (n := 32) (by omega : 32 ≤ rest.length)
  rw [List.length_append, addr.length_bytes] at hlen
  obtain ⟨balance, r₂, rfl⟩ := exists_acBe64_append (by omega : 8 ≤ r₁.length)
  rw [List.length_append, length_acBe64] at hlen
  obtain ⟨nonce, r₃, rfl⟩ := exists_acBe64_append (by omega : 8 ≤ r₂.length)
  rw [List.length_append, length_acBe64] at hlen
  obtain ⟨stake, r₄, rfl⟩ := exists_acBe64_append (by omega : 8 ≤ r₃.length)
  rw [List.length_append, length_acBe64] at hlen
  obtain ⟨unbondAt, r₅, rfl⟩ := exists_acBe64_append (by omega : 8 ≤ r₄.length)
  have hbytes : addr.bytes ++ (acBe64 balance ++ (acBe64 nonce ++ (acBe64 stake ++
      (acBe64 unbondAt ++ r₅)))) = accountBytes ⟨addr, balance, nonce, stake, unbondAt⟩ ++ r₅ := by
    simp [accountBytes]
  rw [hbytes, readAccount_append, Option.some.injEq, Prod.mk.injEq] at h
  rw [hbytes, h.1, h.2]

/-- A round of the name loop has consumed the record of its name. -/
lemma readName_enc (rest : Bytes) (e : NameEntry) (rest' : Bytes)
    (h : readName rest = some (e, rest')) : rest = nameBytes e ++ rest' := by
  have hvalid := readName_valid rest e rest' h
  have hlen : 1 ≤ rest.length := by
    by_contra hlt
    rw [readName, if_pos (by omega)] at h
    cases h
  obtain ⟨nl, r₁, rfl⟩ := exists_acBe8_append hlen
  have hread : rgetU8 ⟨acBe8 nl ++ r₁, false⟩ = (nl, ⟨r₁, false⟩) := rgetU8_append nl r₁
  simp only [readName, hread] at h
  split_ifs at h with _ _ hr₁ hv
  -- the name has the length that the first byte says
  have hname : (r₁.take nl.toNat).length = nl.toNat := List.length_take_of_le (by omega)
  obtain ⟨addr, r₂, hr₂⟩ := exists_arr_append
    (show 32 ≤ (r₁.drop nl.toNat).length by rw [List.length_drop]; omega)
  have hsplit : r₁ = r₁.take nl.toNat ++ (addr.bytes ++ r₂) := by
    rw [← hr₂, List.take_append_drop]
  have hbytes : acBe8 nl ++ r₁ = nameBytes ⟨r₁.take nl.toNat, addr⟩ ++ r₂ := by
    rw [nameBytes, hname, UInt8.ofNat_toNat, List.append_assoc, List.append_assoc, ← hsplit]
  generalize r₁.take nl.toNat = name at hname hsplit hbytes
  rw [hsplit, rget_append name _ hname] at h
  simp only [rgetArr_append, Option.some.injEq, Prod.mk.injEq] at h
  rw [hbytes, h.1, h.2]

/-- The entries that are read back are the bytes behind the fixed fields. -/
lemma deserializeEntries_true {chainId : UInt64} {nacc nname : ℕ} {rest : Bytes} {s : AcState}
    (h : deserializeEntries chainId nacc nname rest = (true, s)) :
    s.chainId = chainId ∧ s.accounts.length = nacc ∧ s.names.length = nname ∧
      rest = s.accounts.flatMap accountBytes ++ s.names.flatMap nameBytes := by
  rw [deserializeEntries] at h
  split at h
  · cases h
  · rename_i accs hacc
    split at h
    · cases h
    · rename_i names hname
      obtain ⟨hempty, rfl⟩ := Prod.mk.inj h
      obtain ⟨hrest, hlen⟩ := readSorted_enc readAccount_enc hacc
      obtain ⟨hrest', hlen'⟩ := readSorted_enc readName_enc hname
      refine ⟨rfl, hlen, hlen', ?_⟩
      rw [List.isEmpty_iff.mp hempty, List.append_nil] at hrest'
      exact hrest.trans (congrArg _ hrest')

/-- What is accepted is the snapshot of the state that comes out. -/
theorem stateBytes_of_deserialize {s t : AcState} {buf : Bytes}
    (h : acStateDeserialize t buf = (true, s)) : stateBytes s = buf ∧ s.chainId = t.chainId := by
  rw [acStateDeserialize] at h
  split_ifs at h with hlen hmagic
  · cases h
  · cases h
  · have htake : buf.take stateMagic.length = stateMagic :=
      Std.LawfulEqOrd.eq_of_compare (α := Bytes) (not_not.mp hmagic)
    have hsplit := List.take_append_drop stateMagic.length buf
    rw [htake] at hsplit
    have hdrop : 17 ≤ (buf.drop stateMagic.length).length := by
      rw [List.length_drop]
      omega
    generalize buf.drop stateMagic.length = r₀ at h hsplit hdrop
    obtain ⟨version, r₁, rfl⟩ := exists_acBe8_append (by omega : 1 ≤ r₀.length)
    rw [List.length_append, acBe8, length_beEncode] at hdrop
    obtain ⟨cid, r₂, rfl⟩ := exists_acBe64_append (by omega : 8 ≤ r₁.length)
    rw [List.length_append, length_acBe64] at hdrop
    obtain ⟨nacc, r₃, rfl⟩ := exists_acBe32_append (by omega : 4 ≤ r₂.length)
    rw [List.length_append, acBe32, length_beEncode] at hdrop
    obtain ⟨nname, r₄, rfl⟩ := exists_acBe32_append (by omega : 4 ≤ r₃.length)
    simp only [acBe8, acBe32, acBe64, rgetU8_append, rgetU64_append, rgetU32_append] at h
    split_ifs at h with hversion hcid
    · cases h
    · cases h
    · obtain ⟨hchain, hna, hnn, hrest⟩ := deserializeEntries_true h
      refine ⟨?_, hchain⟩
      rw [← hsplit, stateBytes, hna, hnn, UInt32.ofNat_toNat, UInt32.ofNat_toNat, hchain,
        ← not_not.mp hcid, ← not_not.mp hversion, hrest]
      simp only [List.append_assoc]

end AgentChain
