import AgentChain.CodecRoundTrip
import AgentChain.Lib.SortedArray

/-!
# The account and name store

`state.c` keeps the accounts in an array sorted by address and the registered names in a
second array sorted by name.  Both are searched by bisection and changed in place.  The
sortedness of the two arrays and the validity of the names are fields of the state, so that
every state of the model is searchable.

What a lookup returns after an update is stated with `acStateGet_set`; sums over all
accounts change by the replaced account (`sum_set`).
-/

namespace AgentChain

open SortedArray

/-! ### Accounts and names -/

/-- `ac_account_t` -/
structure Account where
  addr : Addr
  balance : UInt64
  nonce : UInt64
  stake : UInt64
  unbondAt : UInt64
deriving DecidableEq

/-- The account that `ac_state_get` writes for an address it does not find. -/
def zeroAccount (addr : Addr) : Account := ⟨addr, 0, 0, 0, 0⟩

/-- `account_is_empty` -/
def accountIsEmpty (a : Account) : Bool :=
  a.balance == 0 && a.nonce == 0 && a.stake == 0 && a.unbondAt == 0

/-- `state_name_t`; the length field is the length of the name. -/
structure NameEntry where
  name : Bytes
  addr : Addr
deriving DecidableEq

/-- `name_cmp`: the common prefix first, then the shorter name. -/
def nameCmp (a b : Bytes) : Ordering :=
  match memcmp (a.take (min a.length b.length)) (b.take (min a.length b.length)) with
  | .eq => if a.length < b.length then .lt else if b.length < a.length then .gt else .eq
  | o => o

/-- `name_cmp` is the lexicographic order. -/
lemma nameCmp_eq_compare (a b : Bytes) : nameCmp a b = compare a b := by
  induction a generalizing b with
  | nil => cases b <;> simp [nameCmp, memcmp]
  | cons x a ih =>
    cases b with
    | nil => simp [nameCmp, memcmp]
    | cons y b =>
      have h := ih b
      simp only [nameCmp, memcmp] at h ⊢
      simp only [List.length_cons, Nat.add_min_add_right, List.take_succ_cons,
        List.compare_cons_cons, Nat.add_lt_add_iff_right]
      cases compare x y with
      | lt => rfl
      | gt => rfl
      | eq => simpa using h

instance : Std.TransCmp nameCmp where
  eq_swap {a b} := by
    rw [nameCmp_eq_compare, nameCmp_eq_compare]
    exact Std.OrientedOrd.eq_swap (α := Bytes)
  isLE_trans {a b c} h₁ h₂ := by
    rw [nameCmp_eq_compare] at *
    exact Std.TransOrd.isLE_trans (α := Bytes) h₁ h₂

instance : Std.LawfulEqCmp nameCmp where
  compare_self {a} := by
    rw [nameCmp_eq_compare]
    exact Std.ReflOrd.compare_self (α := Bytes)
  eq_of_compare {a b} h := by
    rw [nameCmp_eq_compare] at h
    exact Std.LawfulEqOrd.eq_of_compare (α := Bytes) h

/-- `ac_state_t` -/
structure AcState where
  chainId : UInt64
  accounts : List Account
  names : List NameEntry
  accounts_sorted : Sorted Account.addr acAddrCmp accounts
  names_sorted : Sorted NameEntry.name nameCmp names
  names_valid : ∀ e ∈ names, acNameValid e.name = true

@[ext] lemma AcState.ext {s t : AcState} (hc : s.chainId = t.chainId)
    (ha : s.accounts = t.accounts) (hn : s.names = t.names) : s = t := by
  cases s
  cases t
  cases hc
  cases ha
  cases hn
  rfl

/-- `ac_state_new` -/
def acStateNew (chainId : UInt64) : AcState :=
  ⟨chainId, [], [], sorted_nil, sorted_nil, by simp⟩

/-! ### Lookup -/

/-- `acc_lookup` -/
def accLookup (accounts : List Account) (addr : Addr) : ℤ :=
  search accounts fun a => acAddrCmp a.addr addr

/-- `ac_state_get`: whether the account exists, and its record. -/
def acStateGet (s : AcState) (addr : Addr) : Bool × Account :=
  let i := accLookup s.accounts addr
  if i < 0 then (false, zeroAccount addr)
  else
    match s.accounts[i.toNat]? with
    | some a => (true, a)
    | none => (false, zeroAccount addr)

/-- The array cut at an address: the accounts before it, at most one account with the
address, and the accounts behind it. -/
structure CutAt (accounts : List Account) (addr : Addr) (l m r : List Account) : Prop where
  eq : accounts = l ++ m ++ r
  mid : m = [] ∨ ∃ x, m = [x] ∧ x.addr = addr
  cut : Cut (fun a => acAddrCmp a.addr addr) l r

lemma exists_cutAt {accounts : List Account} (h : Sorted Account.addr acAddrCmp accounts)
    (addr : Addr) : ∃ l m r, CutAt accounts addr l m r := by
  rcases cut_of_sorted h addr with ⟨l, x, r, rfl, hx, hcut⟩ | ⟨l, r, rfl, hcut⟩
  · exact ⟨l, [x], r, by simp, Or.inr ⟨x, rfl, hx⟩, hcut⟩
  · exact ⟨l, [], r, by simp, Or.inl rfl, hcut⟩

lemma acAddrCmp_self (a : Addr) : acAddrCmp a a = .eq := Std.ReflCmp.compare_self

lemma CutAt.notMem_left {accounts : List Account} {addr : Addr} {l m r : List Account}
    (h : CutAt accounts addr l m r) {x : Account} (hx : x ∈ l ++ r) : x.addr ≠ addr := by
  intro he
  rcases List.mem_append.mp hx with hx | hx
  · have := h.cut.below x hx
    rw [he, acAddrCmp_self] at this
    exact absurd this (by decide)
  · have := h.cut.above x hx
    rw [he, acAddrCmp_self] at this
    exact absurd this (by decide)

/-- The result of the search in terms of the cut. -/
lemma CutAt.accLookup_eq {accounts : List Account} {addr : Addr} {l m r : List Account}
    (h : CutAt accounts addr l m r) :
    accLookup accounts addr = if m = [] then -((l.length : ℤ) + 1) else l.length := by
  rw [accLookup, h.eq]
  rcases h.mid with rfl | ⟨x, rfl, hx⟩
  · rw [if_pos rfl, List.append_nil]
    exact search_missing h.cut
  · rw [if_neg (by simp), List.append_assoc]
    exact search_found h.cut (by simp only [hx, acAddrCmp_self])

lemma CutAt.get_eq {s : AcState} {addr : Addr} {l m r : List Account}
    (h : CutAt s.accounts addr l m r) :
    acStateGet s addr = match m with
      | [] => (false, zeroAccount addr)
      | x :: _ => (true, x) := by
  rw [acStateGet, h.accLookup_eq]
  rcases h.mid with rfl | ⟨x, rfl, hx⟩
  · simp only [if_true]
    rw [if_pos (by omega)]
  · simp only [if_neg (List.cons_ne_nil x []), h.eq]
    rw [if_neg (by omega)]
    simp

/-- A stored account is found. -/
lemma acStateGet_of_mem {s : AcState} {x : Account} (hx : x ∈ s.accounts) :
    acStateGet s x.addr = (true, x) := by
  obtain ⟨l, m, r, h⟩ := exists_cutAt s.accounts_sorted x.addr
  rw [h.get_eq]
  have hmem := hx
  rw [h.eq, List.append_assoc, List.mem_append, List.mem_append] at hmem
  rcases hmem with hmem | hmem | hmem
  · exact absurd rfl (h.notMem_left (List.mem_append_left _ hmem))
  · rcases h.mid with rfl | ⟨y, rfl, -⟩
    · exact absurd hmem (by simp)
    · rw [List.mem_singleton] at hmem
      exact congrArg (Prod.mk true) hmem.symm
  · exact absurd rfl (h.notMem_left (List.mem_append_right _ hmem))

/-- An address without an account reads as zero. -/
lemma acStateGet_of_notMem {s : AcState} {addr : Addr} (h : ∀ x ∈ s.accounts, x.addr ≠ addr) :
    acStateGet s addr = (false, zeroAccount addr) := by
  obtain ⟨l, m, r, hc⟩ := exists_cutAt s.accounts_sorted addr
  rw [hc.get_eq]
  rcases hc.mid with rfl | ⟨x, rfl, hx⟩
  · rfl
  · exact absurd hx (h x (by rw [hc.eq]; simp))

lemma acStateGet_cases (s : AcState) (addr : Addr) :
    (∃ x ∈ s.accounts, x.addr = addr ∧ acStateGet s addr = (true, x)) ∨
      ((∀ x ∈ s.accounts, x.addr ≠ addr) ∧ acStateGet s addr = (false, zeroAccount addr)) := by
  by_cases h : ∃ x ∈ s.accounts, x.addr = addr
  · obtain ⟨x, hx, rfl⟩ := h
    exact Or.inl ⟨x, hx, rfl, acStateGet_of_mem hx⟩
  · push Not at h
    exact Or.inr ⟨h, acStateGet_of_notMem h⟩

/-- Whoever has the minimal stake has an account. -/
lemma acStateGet_staked {s : AcState} {addr : Addr}
    (h : ¬ (acStateGet s addr).2.stake < acMinStakeUcrd) :
    ∃ x ∈ s.accounts, x.addr = addr ∧ acStateGet s addr = (true, x) := by
  rcases acStateGet_cases s addr with hfound | ⟨-, hget⟩
  · exact hfound
  · rw [hget] at h
    exact absurd (by decide : (0 : UInt64) < acMinStakeUcrd) h

@[simp] lemma acStateGet_addr (s : AcState) (addr : Addr) : (acStateGet s addr).2.addr = addr := by
  rcases acStateGet_cases s addr with ⟨x, -, hx, h⟩ | ⟨-, h⟩
  · rw [h, hx]
  · rw [h]
    rfl

/-- An account with a positive field is stored. -/
lemma acStateGet_found {s : AcState} {addr : Addr}
    (h : accountIsEmpty (acStateGet s addr).2 = false) : (acStateGet s addr).1 = true := by
  rcases acStateGet_cases s addr with ⟨x, -, -, hx⟩ | ⟨-, hx⟩
  · rw [hx]
  · rw [hx] at h
    simp [zeroAccount, accountIsEmpty] at h

/-! ### Update -/

/-- The array operation of `ac_state_set`: replace, remove or insert. -/
def setAccounts (accounts : List Account) (acc : Account) : List Account :=
  let i := accLookup accounts acc.addr
  if 0 ≤ i then
    if accountIsEmpty acc then accounts.eraseIdx i.toNat else accounts.set i.toNat acc
  else if accountIsEmpty acc then accounts
  else accounts.insertIdx (-i - 1).toNat acc

/-- What an update leaves at the cut. -/
def kept (acc : Account) : List Account := if accountIsEmpty acc then [] else [acc]

lemma CutAt.setAccounts_eq {accounts : List Account} {acc : Account} {l m r : List Account}
    (h : CutAt accounts acc.addr l m r) : setAccounts accounts acc = l ++ kept acc ++ r := by
  rw [setAccounts, h.accLookup_eq]
  rcases h.mid with rfl | ⟨x, rfl, -⟩
  · simp only [if_true, h.eq, List.append_nil]
    rw [if_neg (by omega), kept]
    split_ifs
    · simp
    · rw [show (-(-((l.length : ℤ) + 1)) - 1).toNat = l.length by omega]
      simp [insertIdx_length_append]
  · simp only [if_neg (List.cons_ne_nil x []), h.eq]
    rw [if_pos (by omega), kept]
    split_ifs
    · simp [List.eraseIdx_append_of_length_le]
    · simp [List.set_append_right]

lemma sorted_setAccounts {accounts : List Account} (acc : Account)
    (h : Sorted Account.addr acAddrCmp accounts) :
    Sorted Account.addr acAddrCmp (setAccounts accounts acc) := by
  obtain ⟨l, m, r, hc⟩ := exists_cutAt h acc.addr
  have hs := h
  rw [hc.eq] at hs
  rw [hc.setAccounts_eq, kept]
  split_ifs
  · simpa using hs.cut_out
  · simpa using Cut.sorted_insert hs hc.cut

/-- `ac_state_set` -/
def acStateSet (s : AcState) (acc : Account) : AcState :=
  { s with
    accounts := setAccounts s.accounts acc
    accounts_sorted := sorted_setAccounts acc s.accounts_sorted }

@[simp] lemma acStateSet_chainId (s : AcState) (acc : Account) :
    (acStateSet s acc).chainId = s.chainId := rfl

@[simp] lemma acStateSet_names (s : AcState) (acc : Account) :
    (acStateSet s acc).names = s.names := rfl

lemma mem_acStateSet {s : AcState} {acc x : Account} :
    x ∈ (acStateSet s acc).accounts ↔
      (x = acc ∧ accountIsEmpty acc = false) ∨ (x ∈ s.accounts ∧ x.addr ≠ acc.addr) := by
  obtain ⟨l, m, r, h⟩ := exists_cutAt s.accounts_sorted acc.addr
  have hm : ∀ y ∈ m, y.addr = acc.addr := by
    rcases h.mid with rfl | ⟨z, rfl, hz⟩
    · simp
    · simpa using hz
  have hk : x ∈ kept acc ↔ x = acc ∧ accountIsEmpty acc = false := by
    rw [kept]
    split_ifs with he <;> simp [he]
  have hlr : ∀ y ∈ l ++ r, y.addr ≠ acc.addr := fun y hy => h.notMem_left hy
  show x ∈ setAccounts s.accounts acc ↔ _
  rw [h.setAccounts_eq, h.eq]
  simp only [List.mem_append, hk] at hlr ⊢
  constructor
  · rintro ((hx | hx) | hx)
    · exact Or.inr ⟨Or.inl (Or.inl hx), hlr x (Or.inl hx)⟩
    · exact Or.inl hx
    · exact Or.inr ⟨Or.inr hx, hlr x (Or.inr hx)⟩
  · rintro (hx | ⟨(hx | hx) | hx, hne⟩)
    · exact Or.inl (Or.inr hx)
    · exact Or.inl (Or.inl hx)
    · exact absurd (hm x hx) hne
    · exact Or.inr hx

/-- A lookup after an update. -/
theorem acStateGet_set (s : AcState) (acc : Account) (addr : Addr) :
    (acStateGet (acStateSet s acc) addr) =
      if addr = acc.addr then
        (if accountIsEmpty acc then (false, zeroAccount addr) else (true, acc))
      else acStateGet s addr := by
  split_ifs with ha he
  · apply acStateGet_of_notMem
    intro x hx
    rcases mem_acStateSet.mp hx with ⟨-, hne⟩ | ⟨-, hne⟩
    · rw [he] at hne
      exact absurd hne (by decide)
    · rw [ha]
      exact hne
  · rw [ha]
    exact acStateGet_of_mem (mem_acStateSet.mpr (Or.inl ⟨rfl, by simpa using he⟩))
  · rcases acStateGet_cases s addr with ⟨x, hx, rfl, hget⟩ | ⟨hmiss, hget⟩
    · rw [hget]
      exact acStateGet_of_mem (mem_acStateSet.mpr (Or.inr ⟨hx, ha⟩))
    · rw [hget]
      apply acStateGet_of_notMem
      intro x hx
      rcases mem_acStateSet.mp hx with ⟨rfl, -⟩ | ⟨hx, -⟩
      · exact fun h => ha h.symm
      · exact hmiss x hx

lemma eq_zeroAccount_of_empty {acc : Account} (h : accountIsEmpty acc = true) :
    acc = zeroAccount acc.addr := by
  cases acc
  simp only [accountIsEmpty, Bool.and_eq_true, beq_iff_eq] at h
  obtain ⟨⟨⟨rfl, rfl⟩, rfl⟩, rfl⟩ := h
  rfl

/-- The record read after an update, the empty record being the zero record. -/
lemma acStateGet_set_snd (s : AcState) (acc : Account) (addr : Addr) :
    (acStateGet (acStateSet s acc) addr).2 =
      if addr = acc.addr then acc else (acStateGet s addr).2 := by
  rw [acStateGet_set]
  split_ifs with ha he
  · rw [ha]
    exact (eq_zeroAccount_of_empty he).symm
  · rfl
  · rfl

/-- A sum over all accounts changes by the account that is replaced. -/
theorem sum_set (f : Account → ℕ) (hf : ∀ a, accountIsEmpty a = true → f a = 0)
    (s : AcState) (acc : Account) :
    ((acStateSet s acc).accounts.map f).sum + f (acStateGet s acc.addr).2 =
      (s.accounts.map f).sum + f acc := by
  obtain ⟨l, m, r, h⟩ := exists_cutAt s.accounts_sorted acc.addr
  have hk : ((kept acc).map f).sum = f acc := by
    rw [kept]
    split_ifs with he
    · simp [hf acc he]
    · simp
  have hm : (m.map f).sum = f (acStateGet s acc.addr).2 := by
    rw [h.get_eq]
    rcases h.mid with rfl | ⟨x, rfl, -⟩
    · exact (hf _ rfl).symm
    · simp
  show ((setAccounts s.accounts acc).map f).sum + _ = _
  rw [h.setAccounts_eq, ← hm]
  conv_rhs => rw [h.eq]
  simp only [List.map_append, List.sum_append, hk]
  omega

/-- `ac_state_credit` -/
def acStateCredit (s : AcState) (addr : Addr) (amount : UInt64) : AcState :=
  let a := (acStateGet s addr).2
  acStateSet s { a with balance := a.balance + amount }

/-- `ac_state_debit`; a debit beyond the balance leaves zero. -/
def acStateDebit (s : AcState) (addr : Addr) (amount : UInt64) : AcState :=
  let a := (acStateGet s addr).2
  acStateSet s { a with balance := if a.balance < amount then 0 else a.balance - amount }

/-! ### Names -/

/-- `name_lookup_index` -/
def nameLookupIndex (names : List NameEntry) (name : Bytes) : ℤ :=
  search names fun e => nameCmp e.name name

/-- `ac_state_name_lookup` -/
def acStateNameLookup (s : AcState) (name : Bytes) : Option Addr :=
  let i := nameLookupIndex s.names name
  if i < 0 then none else (s.names[i.toNat]?).map NameEntry.addr

/-- The array operation of `ac_state_name_register`. -/
def registerNames (names : List NameEntry) (e : NameEntry) : List NameEntry :=
  names.insertIdx (-(nameLookupIndex names e.name) - 1).toNat e

lemma registerNames_cut {names : List NameEntry} {e : NameEntry}
    (h : Sorted NameEntry.name nameCmp names) (hi : nameLookupIndex names e.name < 0) :
    ∃ l r, names = l ++ r ∧ Cut (fun y => nameCmp y.name e.name) l r ∧
      registerNames names e = l ++ e :: r := by
  rcases cut_of_sorted h e.name with ⟨l, x, r, rfl, hx, hcut⟩ | ⟨l, r, rfl, hcut⟩
  · have hfound : nameLookupIndex (l ++ x :: r) e.name = l.length :=
      search_found hcut (by rw [hx]; exact Std.ReflCmp.compare_self)
    omega
  · have hmiss : nameLookupIndex (l ++ r) e.name = -((l.length : ℤ) + 1) := search_missing hcut
    refine ⟨l, r, rfl, hcut, ?_⟩
    rw [registerNames, hmiss, show (-(-((l.length : ℤ) + 1)) - 1).toNat = l.length by omega]
    exact insertIdx_length_append l r e

lemma sorted_registerNames {names : List NameEntry} {e : NameEntry}
    (h : Sorted NameEntry.name nameCmp names) (hi : nameLookupIndex names e.name < 0) :
    Sorted NameEntry.name nameCmp (registerNames names e) := by
  obtain ⟨l, r, rfl, hcut, heq⟩ := registerNames_cut h hi
  rw [heq]
  exact Cut.sorted_insert (m := []) (by simpa using h) hcut

lemma valid_registerNames {names : List NameEntry} {e : NameEntry}
    (h : Sorted NameEntry.name nameCmp names) (hi : nameLookupIndex names e.name < 0)
    (hn : ∀ x ∈ names, acNameValid x.name = true) (he : acNameValid e.name = true) :
    ∀ x ∈ registerNames names e, acNameValid x.name = true := by
  obtain ⟨l, r, rfl, -, heq⟩ := registerNames_cut h hi
  intro x hx
  rw [heq, List.mem_append, List.mem_cons] at hx
  rcases hx with hx | rfl | hx
  · exact hn x (List.mem_append_left _ hx)
  · exact he
  · exact hn x (List.mem_append_right _ hx)

/-- `ac_state_name_register`; `none` when the name is invalid or taken. -/
def acStateNameRegister (s : AcState) (name : Bytes) (addr : Addr) : Option AcState :=
  if hv : acNameValid name = true then
    if hi : nameLookupIndex s.names name < 0 then
      some { s with
        names := registerNames s.names ⟨name, addr⟩
        names_sorted := sorted_registerNames (e := ⟨name, addr⟩) s.names_sorted hi
        names_valid := valid_registerNames (e := ⟨name, addr⟩) s.names_sorted hi
          s.names_valid hv }
    else none
  else none

lemma acStateNameRegister_accounts {s t : AcState} {name : Bytes} {addr : Addr}
    (h : acStateNameRegister s name addr = some t) :
    t.accounts = s.accounts ∧ t.chainId = s.chainId := by
  rw [acStateNameRegister] at h
  split_ifs at h
  rw [Option.some.injEq] at h
  rw [← h]
  exact ⟨rfl, rfl⟩

/-! ### State root -/

section Root

variable (P : Platform)

/-- The five chunks that `ac_state_root` hashes for one account. -/
def accountChunks (a : Account) : List Bytes :=
  [a.addr.bytes, acBe64 a.balance, acBe64 a.nonce, acBe64 a.stake, acBe64 a.unbondAt]

/-- The three chunks that `ac_state_root` hashes for one name. -/
def nameChunks (e : NameEntry) : List Bytes :=
  [[UInt8.ofNat e.name.length], e.name, e.addr.bytes]

/-- Whether the three work buffers of `ac_state_root` are obtained: the chunk pointers, the
chunk lengths and, when there are accounts, their encoded fields. -/
def rootBuffers (s : AcState) : Bool :=
  let totalChunks := 1 + s.accounts.length * 5 + 1 + s.names.length * 3
  P.malloc (totalChunks * 8) && (P.malloc (s.accounts.length * 32) || s.accounts.isEmpty)

/-- `ac_state_root`; without its buffers it writes the zero hash. -/
def acStateRoot (s : AcState) : Hash :=
  if rootBuffers P s then
    acHashMulti P (ascii "AGCH:STATE:v1" :: s.accounts.flatMap accountChunks ++
      [[0xFF]] ++ s.names.flatMap nameChunks)
  else ByteArr.fill 32 0

end Root

end AgentChain
