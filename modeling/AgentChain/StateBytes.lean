import AgentChain.Reference
import AgentChain.Store

/-!
# The byte strings of a state

A state is written down in two forms: as a snapshot, which is read back, and as the input of
the hash function in `ac_state_root`, which is not.  Snapshots are exact
(`snapshot_exact`).  The input of the hash carries no counts, but it can be taken apart from its
end: a name is made of characters that are no lengths, and the byte in front of the last 31
bytes of an account is zero as long as the balance is below `2 ^ 56`
(`rootPreimage_injective`).
-/

namespace AgentChain

open SortedArray

/-! ### Snapshots -/

/-- **Snapshots are exact.**  The snapshot of a state is read back to the state, and whatever
is accepted is the snapshot of the state that comes out. -/
theorem snapshot_exact (P : Platform) (t : AcState) :
    (∀ s buf, s.Countable → s.chainId = t.chainId → acStateSerialize P s = some buf →
      acStateDeserialize t buf = (true, s)) ∧
    ∀ buf s, acStateDeserialize t buf = (true, s) →
      (P.malloc (snapshotCap s) = true → acStateSerialize P s = some buf) ∧ stateBytes s = buf ∧
        Sorted Account.addr acAddrCmp s.accounts ∧ Sorted NameEntry.name nameCmp s.names ∧
        ∀ e ∈ s.names, acNameValid e.name = true := by
  refine ⟨fun s buf hs hc h => ?_, fun buf s h => ?_⟩
  · rw [acStateSerialize] at h
    split_ifs at h
    obtain rfl := Option.some.inj h
    exact acStateDeserialize_stateBytes hs hc.symm
  · have hbytes := (stateBytes_of_deserialize h).1
    refine ⟨fun hgranted => ?_, hbytes, s.accounts_sorted, s.names_sorted, s.names_valid⟩
    rw [acStateSerialize, if_pos hgranted, hbytes]

/-- A state with an account and a name. -/
def namedState (chainId : UInt64) : AcState :=
  storeAfter chainId [.credit (ByteArr.fill 32 0xFF) 5,
    .nameRegister (ascii "alice") (ByteArr.fill 32 0xFF)]

theorem snapshot_exact_named :
    acStateDeserialize (acStateNew 1) (stateBytes (namedState 1)) = (true, namedState 1) ∧
      acStateSerialize reference (namedState 1) = some (stateBytes (namedState 1)) := by
  have hs : (namedState 1).Countable := ⟨by decide +kernel, by decide +kernel⟩
  have hser : acStateSerialize reference (namedState 1) = some (stateBytes (namedState 1)) :=
    if_pos (by decide +kernel)
  have hexact := snapshot_exact reference (acStateNew 1)
  have hback := hexact.1 (namedState 1) _ hs (by decide +kernel) hser
  exact ⟨hback, (hexact.2 _ _ hback).1 (by decide +kernel)⟩

/-! ### The input of the state root -/

/-- The bytes that `ac_state_root` feeds to the hash function. -/
def rootPreimage (s : AcState) : Bytes :=
  (ascii "AGCH:STATE:v1" :: s.accounts.flatMap accountChunks ++ [[0xFF]] ++
    s.names.flatMap nameChunks).flatten

lemma acBe8_eq (v : UInt8) : acBe8 v = [v] := by
  rw [acBe8, beEncode, beEncode, pow_zero, Nat.div_one, UInt8.ofNat_toNat]

lemma rootPreimage_eq (s : AcState) :
    rootPreimage s = ascii "AGCH:STATE:v1" ++ s.accounts.flatMap accountBytes ++ [0xFF] ++
      s.names.flatMap nameBytes := by
  have hacc : (s.accounts.flatMap accountChunks).flatten = s.accounts.flatMap accountBytes := by
    rw [List.flatten_eq_flatMap, List.flatMap_assoc]
    refine List.flatMap_congr fun a _ => ?_
    simp [accountChunks, accountBytes]
  have hname : (s.names.flatMap nameChunks).flatten = s.names.flatMap nameBytes := by
    rw [List.flatten_eq_flatMap, List.flatMap_assoc]
    refine List.flatMap_congr fun e _ => ?_
    simp [nameChunks, nameBytes, acBe8_eq]
  rw [rootPreimage, List.flatten_append, List.flatten_append, hname, List.flatten_cons, hacc]
  simp

/-- A byte that ends a run of other bytes is found from the end. -/
lemma last_stop_unique {good : UInt8 → Prop} {pre pre' l l' : Bytes} {a a' : UInt8}
    (ha : ¬ good a) (ha' : ¬ good a') (hl : ∀ x ∈ l, good x) (hl' : ∀ x ∈ l', good x)
    (h : pre ++ a :: l = pre' ++ a' :: l') : pre = pre' ∧ a :: l = a' :: l' := by
  rcases List.append_eq_append_iff.mp h with ⟨c, rfl, hc⟩ | ⟨c, rfl, hc⟩
  · cases c with
    | nil => exact ⟨(List.append_nil pre).symm, hc⟩
    | cons x c =>
      -- the second stop would be inside the first run
      rw [List.cons_append, List.cons.injEq] at hc
      exact absurd (hl a' (hc.2 ▸ List.mem_append_right c List.mem_cons_self)) ha'
  · cases c with
    | nil => exact ⟨List.append_nil pre', hc.symm⟩
    | cons x c =>
      rw [List.cons_append, List.cons.injEq] at hc
      exact absurd (hl' a (hc.2 ▸ List.mem_append_right c List.mem_cons_self)) ha

/-- The characters of a name are above every length. -/
lemma nameChar_of_valid {name : Bytes} (h : acNameValid name = true) :
    (∀ x ∈ name, 0x2D ≤ x.toNat) ∧ name ≠ [] ∧ name.length ≤ 32 := by
  rw [acNameValid, Bool.and_eq_true, decide_eq_true_eq, List.all_eq_true] at h
  obtain ⟨⟨hmin, hmax⟩, hall⟩ := h
  refine ⟨fun x hx => ?_, ?_, hmax⟩
  · have hc := of_decide_eq_true (hall x hx)
    rcases hc with ⟨hlo, -⟩ | ⟨hlo, -⟩ | rfl
    · exact le_trans (by decide) (UInt8.le_iff_toNat_le.mp hlo)
    · exact le_trans (by decide) (UInt8.le_iff_toNat_le.mp hlo)
    · decide
  · rintro rfl
    exact absurd hmin (by decide)

/-- The record of a name in the form in which it is read from the end. -/
lemma nameBytes_eq (e : NameEntry) :
    nameBytes e = (UInt8.ofNat e.name.length :: e.name) ++ e.addr.bytes := by
  simp [nameBytes, acBe8_eq]

/-- The last name of a string is found from its end. -/
lemma last_name_unique {pre pre' : Bytes} {e e' : NameEntry} (he : acNameValid e.name = true)
    (he' : acNameValid e'.name = true) (h : pre ++ nameBytes e = pre' ++ nameBytes e') :
    pre = pre' ∧ e = e' := by
  obtain ⟨hchars, -, hlen⟩ := nameChar_of_valid he
  obtain ⟨hchars', -, hlen'⟩ := nameChar_of_valid he'
  have hstop : ∀ n ≤ 32, ¬ 0x2D ≤ (UInt8.ofNat n).toNat := by
    intro n hn
    rw [UInt8.toNat_ofNat_of_lt' (show n < 256 by omega)]
    omega
  rw [nameBytes_eq, nameBytes_eq, ← List.append_assoc, ← List.append_assoc] at h
  obtain ⟨hfront, haddr⟩ := List.append_inj' h (by simp)
  obtain ⟨hpre, hname⟩ := @last_stop_unique (fun x => 0x2D ≤ x.toNat) _ _ _ _ _ _ (hstop _ hlen)
    (hstop _ hlen') hchars hchars' hfront
  refine ⟨hpre, ?_⟩
  cases e
  cases e'
  rw [NameEntry.mk.injEq]
  exact ⟨(List.cons.inj hname).2, ByteArr.ext haddr⟩

/-- A balance below `2 ^ 56` starts with a zero byte. -/
lemma acBe64_of_lt {v : UInt64} (h : v.toNat < 2 ^ 56) : acBe64 v = 0 :: beEncode 7 v.toNat := by
  have hzero : v.toNat / 256 ^ 7 = 0 := Nat.div_eq_of_lt (lt_of_lt_of_le h (by norm_num))
  rw [acBe64, beEncode, hzero]
  rfl

/-- Accounts and the separator do not end like a name. -/
lemma separator_ne_name {accounts : List Account} (hb : ∀ a ∈ accounts, a.balance.toNat < 2 ^ 56)
    {pre : Bytes} {e : NameEntry} (he : acNameValid e.name = true) :
    ascii "AGCH:STATE:v1" ++ accounts.flatMap accountBytes ++ [0xFF] ≠ pre ++ nameBytes e := by
  obtain ⟨hchars, hne, -⟩ := nameChar_of_valid he
  intro h
  rcases List.eq_nil_or_concat accounts with rfl | ⟨init, a, rfl⟩
  · -- too short for a name
    have hlen := congrArg List.length h
    have hdomain : (ascii "AGCH:STATE:v1").length = 13 := by decide
    simp only [List.flatMap_nil, List.append_nil, List.length_append, hdomain, nameBytes_eq,
      List.length_cons, List.length_nil, e.addr.length_bytes] at hlen
    omega
  · have hbal := acBe64_of_lt (hb a (by simp))
    obtain ⟨name, c, hname⟩ := (List.eq_nil_or_concat e.name).resolve_left hne
    -- the first byte of the last balance stands where the last character of the name is
    have hleft : ascii "AGCH:STATE:v1" ++ (init ++ [a]).flatMap accountBytes ++ [0xFF] =
        (ascii "AGCH:STATE:v1" ++ init.flatMap accountBytes ++ a.addr.bytes ++ [0]) ++
          (beEncode 7 a.balance.toNat ++ acBe64 a.nonce ++ acBe64 a.stake ++ acBe64 a.unbondAt ++
            [0xFF]) := by
      simp [accountBytes, hbal]
    have hright : pre ++ nameBytes e =
        (pre ++ UInt8.ofNat e.name.length :: name ++ [c]) ++ e.addr.bytes := by
      rw [nameBytes_eq]
      nth_rewrite 2 [hname]
      simp
    rw [List.concat_eq_append, hleft, hright] at h
    obtain ⟨hfront, -⟩ := List.append_inj' h (by simp [length_acBe64])
    obtain ⟨-, hc⟩ := List.append_inj' hfront rfl
    have hlow := hchars c (by rw [hname]; simp)
    rw [← (List.cons.inj hc).1] at hlow
    exact absurd hlow (by decide)

/-- The names are found from the end. -/
lemma names_unique {accounts accounts' : List Account}
    (hb : ∀ a ∈ accounts, a.balance.toNat < 2 ^ 56)
    (hb' : ∀ a ∈ accounts', a.balance.toNat < 2 ^ 56) {names names' : List NameEntry}
    (hn : ∀ e ∈ names, acNameValid e.name = true) (hn' : ∀ e ∈ names', acNameValid e.name = true)
    (h : ascii "AGCH:STATE:v1" ++ accounts.flatMap accountBytes ++ [0xFF] ++
        names.flatMap nameBytes =
      ascii "AGCH:STATE:v1" ++ accounts'.flatMap accountBytes ++ [0xFF] ++
        names'.flatMap nameBytes) :
    accounts.flatMap accountBytes = accounts'.flatMap accountBytes ∧ names = names' := by
  induction names using List.reverseRecOn generalizing names' with
  | nil =>
    rcases List.eq_nil_or_concat names' with rfl | ⟨init', e', rfl⟩
    · simp only [List.flatMap_nil, List.append_nil] at h
      exact ⟨List.append_cancel_left (List.append_cancel_right h), rfl⟩
    · rw [List.concat_eq_append, List.flatMap_append, List.flatMap_singleton, ← List.append_assoc,
        List.flatMap_nil, List.append_nil] at h
      exact absurd h (separator_ne_name hb (hn' e' (by simp)))
  | append_singleton init e ih =>
    rcases List.eq_nil_or_concat names' with rfl | ⟨init', e', rfl⟩
    · rw [List.flatMap_append, List.flatMap_singleton, ← List.append_assoc, List.flatMap_nil,
        List.append_nil] at h
      exact absurd h.symm (separator_ne_name hb' (hn e (by simp)))
    · rw [List.concat_eq_append] at h hn' ⊢
      rw [List.flatMap_append, List.flatMap_append, List.flatMap_singleton,
        List.flatMap_singleton, ← List.append_assoc, ← List.append_assoc] at h
      obtain ⟨hfront, rfl⟩ := last_name_unique (hn e (by simp)) (hn' e' (by simp)) h
      obtain ⟨hacc, rfl⟩ := ih (fun x hx => hn x (List.mem_append_left _ hx))
        (fun x hx => hn' x (List.mem_append_left _ hx)) hfront
      exact ⟨hacc, rfl⟩

/-- Account records have a fixed length. -/
lemma accountBytes_injective {accounts accounts' : List Account}
    (h : accounts.flatMap accountBytes = accounts'.flatMap accountBytes) :
    accounts = accounts' := by
  have hpos : ∀ (a : Account) rest, accountBytes a ++ rest ≠ [] := fun a rest hnil => by
    have hread := readAccount_append a rest
    rw [hnil] at hread
    cases hread
  induction accounts generalizing accounts' with
  | nil =>
    cases accounts' with
    | nil => rfl
    | cons a' accounts' => exact absurd h.symm (hpos a' _)
  | cons a accounts ih =>
    cases accounts' with
    | nil => exact absurd h (hpos a _)
    | cons a' accounts' =>
      rw [List.flatMap_cons, List.flatMap_cons] at h
      have hread := readAccount_append a (accounts.flatMap accountBytes)
      rw [h, readAccount_append, Option.some.injEq, Prod.mk.injEq] at hread
      rw [hread.1, ih hread.2.symm]

/-- **The input of the state root is injective** on states whose balances are below
`2 ^ 56`. -/
theorem rootPreimage_injective {s t : AcState} (hs : ∀ a ∈ s.accounts, a.balance.toNat < 2 ^ 56)
    (ht : ∀ a ∈ t.accounts, a.balance.toNat < 2 ^ 56) (h : rootPreimage s = rootPreimage t) :
    s.accounts = t.accounts ∧ s.names = t.names := by
  rw [rootPreimage_eq, rootPreimage_eq] at h
  obtain ⟨haccounts, hnames⟩ := names_unique hs ht s.names_valid t.names_valid h
  exact ⟨accountBytes_injective haccounts, hnames⟩

/-- States of different chains with the same input of the root. -/
theorem rootPreimage_injective_named :
    (namedState 1).accounts = (namedState 2).accounts ∧
      (namedState 1).names = (namedState 2).names ∧
      (namedState 1).chainId ≠ (namedState 2).chainId := by
  obtain ⟨haccounts, hnames⟩ := rootPreimage_injective (s := namedState 1) (t := namedState 2)
    (by decide +kernel) (by decide +kernel) (by decide +kernel)
  exact ⟨haccounts, hnames, by decide +kernel⟩

end AgentChain
