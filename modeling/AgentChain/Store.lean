import AgentChain.State
import Mathlib.Data.List.Sort

/-!
# The store as a pair of finite maps

What the store of `state.c` is for can be said without arrays: it maps every address to an
account, which is zero until it is written, and it maps names to addresses, where the first
registration of a name wins.  This file relates the arrays to the maps.  The arrays are a
canonical form: two states with the same maps have the same arrays (`Represents.unique`), and
every operation on the arrays does to the maps what it should (`Represents.exec`).
-/

namespace AgentChain

open SortedArray

/-! ### The maps -/

/-- Accounts by address, and addresses by name. -/
structure StoreMap where
  account : Addr → Account
  owner : Bytes → Option Addr

/-- Nobody has anything. -/
def StoreMap.empty : StoreMap := ⟨zeroAccount, fun _ => none⟩

/-- A write access of the store. -/
inductive StoreOp where
  | set (acc : Account)
  | credit (addr : Addr) (amount : UInt64)
  | debit (addr : Addr) (amount : UInt64)
  | nameRegister (name : Bytes) (addr : Addr)

/-- Replace the balance of an account. -/
def StoreMap.setBalance (m : StoreMap) (addr : Addr) (balance : UInt64) : StoreMap :=
  { m with account := Function.update m.account addr { m.account addr with balance := balance } }

/-- What an access means. -/
def StoreMap.exec (m : StoreMap) : StoreOp → StoreMap
  | .set acc => { m with account := Function.update m.account acc.addr acc }
  | .credit addr amount => m.setBalance addr ((m.account addr).balance + amount)
  | .debit addr amount =>
      m.setBalance addr (if (m.account addr).balance < amount then 0
        else (m.account addr).balance - amount)
  | .nameRegister name addr =>
      if acNameValid name = true ∧ m.owner name = none then
        { m with owner := Function.update m.owner name (some addr) }
      else m

/-- A failed registration leaves the state as it is. -/
def AcState.exec (s : AcState) : StoreOp → AcState
  | .set acc => acStateSet s acc
  | .credit addr amount => acStateCredit s addr amount
  | .debit addr amount => acStateDebit s addr amount
  | .nameRegister name addr => (acStateNameRegister s name addr).getD s

/-! ### Lookups of names -/

section Names

variable {s : AcState} {name : Bytes}

lemma nameCmp_self (name : Bytes) : nameCmp name name = .eq := Std.ReflCmp.compare_self

/-- No entry beside the cut has the name of the cut. -/
lemma name_ne_of_cut {l r : List NameEntry} (h : Cut (fun y => nameCmp y.name name) l r)
    {e : NameEntry} (he : e ∈ l ∨ e ∈ r) : e.name ≠ name := by
  rintro rfl
  rcases he with he | he
  · exact absurd (h.below e he) (by rw [nameCmp_self]; decide)
  · exact absurd (h.above e he) (by rw [nameCmp_self]; decide)

/-- A registered name is found. -/
lemma acStateNameLookup_of_mem {e : NameEntry} (he : e ∈ s.names) :
    acStateNameLookup s e.name = some e.addr := by
  rcases cut_of_sorted s.names_sorted e.name with ⟨l, x, r, heq, hx, hcut⟩ | ⟨l, r, heq, hcut⟩
  · have hfound : nameLookupIndex s.names e.name = l.length := by
      rw [nameLookupIndex, heq]
      exact search_found hcut (by rw [hx, nameCmp_self])
    -- the entry that the search finds is the only one with the name
    have hxe : x = e := by
      rw [heq, List.mem_append, List.mem_cons] at he
      rcases he with he | rfl | he
      · exact absurd rfl (name_ne_of_cut hcut (Or.inl he))
      · rfl
      · exact absurd rfl (name_ne_of_cut hcut (Or.inr he))
    rw [acStateNameLookup, hfound, heq, ← hxe]
    simp
  · rw [heq, List.mem_append] at he
    exact absurd rfl (name_ne_of_cut hcut he)

/-- A name that nobody has registered is not found. -/
lemma acStateNameLookup_of_notMem (h : ∀ e ∈ s.names, e.name ≠ name) :
    nameLookupIndex s.names name < 0 ∧ acStateNameLookup s name = none := by
  have hneg : nameLookupIndex s.names name < 0 := by
    rcases cut_of_sorted s.names_sorted name with ⟨l, x, r, heq, hx, -⟩ | ⟨l, r, heq, hcut⟩
    · exact absurd hx (h x (by simp [heq]))
    · rw [nameLookupIndex, heq, search_missing hcut]
      omega
  refine ⟨hneg, ?_⟩
  rw [acStateNameLookup]
  exact if_pos hneg

lemma acStateNameLookup_eq_some {addr : Addr} :
    acStateNameLookup s name = some addr ↔ ⟨name, addr⟩ ∈ s.names := by
  constructor
  · intro h
    by_cases hmem : ∃ e ∈ s.names, e.name = name
    · obtain ⟨e, he, rfl⟩ := hmem
      rw [acStateNameLookup_of_mem he, Option.some.injEq] at h
      exact h ▸ he
    · push Not at hmem
      rw [(acStateNameLookup_of_notMem hmem).2] at h
      cases h
  · exact acStateNameLookup_of_mem

/-- A lookup after a registration. -/
lemma acStateNameLookup_register (s : AcState) (name : Bytes) (addr : Addr) (other : Bytes) :
    acStateNameLookup ((acStateNameRegister s name addr).getD s) other =
      if other = name ∧ acNameValid name = true ∧ acStateNameLookup s name = none then some addr
      else acStateNameLookup s other := by
  rw [acStateNameRegister]
  by_cases hv : acNameValid name = true
  · rw [dif_pos hv]
    by_cases hi : nameLookupIndex s.names name < 0
    · -- the name is free: one entry is inserted
      obtain ⟨l, r, heq, -, hreg⟩ := registerNames_cut (e := ⟨name, addr⟩) s.names_sorted hi
      have hfree : acStateNameLookup s name = none := by
        rw [acStateNameLookup]
        exact if_pos hi
      rw [dif_pos hi, Option.getD_some]
      refine Option.ext fun x => ?_
      rw [acStateNameLookup_eq_some]
      dsimp only
      rw [hreg, List.mem_append, List.mem_cons, NameEntry.mk.injEq]
      have hold : (⟨other, x⟩ : NameEntry) ∈ l ∨ (⟨other, x⟩ : NameEntry) ∈ r ↔
          acStateNameLookup s other = some x := by
        rw [acStateNameLookup_eq_some, heq, List.mem_append]
      split_ifs with hcond
      · obtain ⟨rfl, -⟩ := hcond
        rw [hfree] at hold
        simp only [reduceCtorEq, iff_false, not_or] at hold
        simp [hold.1, hold.2, eq_comm]
      · have hne : other ≠ name := fun h => hcond ⟨h, hv, hfree⟩
        simp only [hne, false_and, false_or]
        exact hold
    · rw [dif_neg hi, Option.getD_none, if_neg]
      rintro ⟨-, -, hnone⟩
      by_cases hmem : ∃ e ∈ s.names, e.name = name
      · obtain ⟨e, he, rfl⟩ := hmem
        rw [acStateNameLookup_of_mem he] at hnone
        cases hnone
      · push Not at hmem
        exact hi (acStateNameLookup_of_notMem hmem).1
  · rw [dif_neg hv, Option.getD_none, if_neg (fun h => hv h.2.1)]

end Names

/-! ### The arrays represent the maps -/

/-- The arrays hold exactly the accounts that are not empty and the names that are taken. -/
structure Represents (s : AcState) (m : StoreMap) : Prop where
  stored : ∀ x ∈ s.accounts, accountIsEmpty x = false
  account_eq : ∀ addr, (acStateGet s addr).2 = m.account addr
  owner_eq : ∀ name, acStateNameLookup s name = m.owner name

section Represents

variable {s t : AcState} {m : StoreMap}

lemma represents_new (chainId : UInt64) : Represents (acStateNew chainId) .empty := by
  refine ⟨by simp [acStateNew], fun addr => ?_, fun name => ?_⟩
  · rw [acStateGet_of_notMem (by simp [acStateNew])]
    rfl
  · exact (acStateNameLookup_of_notMem (by simp [acStateNew])).2

/-- Writing an account. -/
lemma Represents.set (h : Represents s m) (acc : Account) :
    Represents (acStateSet s acc)
      { m with account := Function.update m.account acc.addr acc } := by
  refine ⟨fun x hx => ?_, fun addr => ?_, h.owner_eq⟩
  · rcases mem_acStateSet.mp hx with ⟨rfl, hne⟩ | ⟨hx, -⟩
    · exact hne
    · exact h.stored x hx
  · rw [acStateGet_set_snd, h.account_eq]
    exact (Function.update_apply _ _ _ _).symm

lemma Represents.setBalance (h : Represents s m) (addr : Addr) (balance : UInt64) :
    Represents (acStateSet s { m.account addr with balance := balance })
      (m.setBalance addr balance) := by
  have haddr : ({ m.account addr with balance := balance } : Account).addr = addr := by
    rw [← h.account_eq]
    exact acStateGet_addr s addr
  have hset := h.set { m.account addr with balance := balance }
  rwa [haddr] at hset

/-- **Every access does what it means.** -/
theorem Represents.exec (h : Represents s m) (op : StoreOp) :
    Represents (s.exec op) (m.exec op) := by
  cases op with
  | set acc => exact h.set acc
  | credit addr amount =>
    rw [AcState.exec, acStateCredit, h.account_eq]
    exact h.setBalance addr _
  | debit addr amount =>
    rw [AcState.exec, acStateDebit, h.account_eq]
    exact h.setBalance addr _
  | nameRegister name addr =>
    have haccounts : (s.exec (.nameRegister name addr)).accounts = s.accounts := by
      rw [AcState.exec]
      cases hreg : acStateNameRegister s name addr with
      | none => rfl
      | some t => exact (acStateNameRegister_accounts hreg).1
    have haccount : (m.exec (.nameRegister name addr)).account = m.account := by
      rw [StoreMap.exec]
      split_ifs
      · rfl
      · rfl
    refine ⟨?_, fun a => ?_, fun other => ?_⟩
    · rw [haccounts]
      exact h.stored
    · rw [haccount, acStateGet, haccounts]
      exact h.account_eq a
    · rw [AcState.exec, acStateNameLookup_register, h.owner_eq, h.owner_eq, StoreMap.exec]
      by_cases hfree : acNameValid name = true ∧ m.owner name = none
      · rw [if_pos hfree]
        simp only [hfree, and_true]
        exact (Function.update_apply _ _ _ _).symm
      · rw [if_neg hfree, if_neg fun hc => hfree hc.2]

/-- The stored accounts in terms of the map. -/
lemma Represents.mem_accounts (h : Represents s m) {x : Account} :
    x ∈ s.accounts ↔ accountIsEmpty x = false ∧ m.account x.addr = x := by
  rw [← h.account_eq]
  constructor
  · intro hx
    exact ⟨h.stored x hx, by rw [acStateGet_of_mem hx]⟩
  · rintro ⟨hne, hget⟩
    rcases acStateGet_cases s x.addr with ⟨y, hy, -, hfound⟩ | ⟨-, hmiss⟩
    · rw [hfound] at hget
      exact hget ▸ hy
    · rw [hmiss] at hget
      rw [← hget] at hne
      exact absurd hne (by simp [accountIsEmpty, zeroAccount])

/-- What `ac_state_get` returns. -/
lemma Represents.get_eq (h : Represents s m) (addr : Addr) :
    acStateGet s addr = (!accountIsEmpty (m.account addr), m.account addr) := by
  rw [← h.account_eq]
  rcases acStateGet_cases s addr with ⟨y, hy, -, hfound⟩ | ⟨-, hmiss⟩
  · rw [hfound, h.stored y hy]
    rfl
  · rw [hmiss]
    rfl

/-- **The arrays are determined by the maps.** -/
theorem Represents.unique (h : Represents s m) (h' : Represents t m) :
    s.accounts = t.accounts ∧ s.names = t.names := by
  refine ⟨s.accounts_sorted.eq_of_mem_iff t.accounts_sorted fun x => ?_,
    s.names_sorted.eq_of_mem_iff t.names_sorted fun e => ?_⟩
  · rw [h.mem_accounts, h'.mem_accounts]
  · have howner : ∀ u : AcState, e ∈ u.names ↔ acStateNameLookup u e.name = some e.addr :=
      fun u => acStateNameLookup_eq_some.symm
    rw [howner, howner, h.owner_eq, h'.owner_eq]

end Represents

/-! ### Sequences of accesses -/

/-- The state behind a sequence of accesses to a new store. -/
def storeAfter (chainId : UInt64) (ops : List StoreOp) : AcState :=
  ops.foldl AcState.exec (acStateNew chainId)

/-- What the sequence means. -/
def mapAfter (ops : List StoreOp) : StoreMap := ops.foldl StoreMap.exec .empty

lemma represents_after (chainId : UInt64) (ops : List StoreOp) :
    Represents (storeAfter chainId ops) (mapAfter ops) := by
  have hfold : ∀ (ops : List StoreOp) s m, Represents s m →
      Represents (ops.foldl AcState.exec s) (ops.foldl StoreMap.exec m) := by
    intro ops
    induction ops with
    | nil => exact fun s m h => h
    | cons op ops ih => exact fun s m h => ih _ _ (h.exec op)
  exact hfold ops _ _ (represents_new chainId)

/-- **The store refines the two maps.**  After every sequence of accesses the arrays are
strictly sorted, hold no empty account and no invalid name, lookups return what the maps
hold, and every other sequence with the same meaning leaves the same arrays and the same
root. -/
theorem store_refines_maps (chainId : UInt64) (ops : List StoreOp) :
    Sorted Account.addr acAddrCmp (storeAfter chainId ops).accounts ∧
      (∀ x ∈ (storeAfter chainId ops).accounts, accountIsEmpty x = false) ∧
      Sorted NameEntry.name nameCmp (storeAfter chainId ops).names ∧
      (∀ e ∈ (storeAfter chainId ops).names, acNameValid e.name = true) ∧
      (∀ addr, acStateGet (storeAfter chainId ops) addr =
        (!accountIsEmpty ((mapAfter ops).account addr), (mapAfter ops).account addr)) ∧
      (∀ name, acStateNameLookup (storeAfter chainId ops) name = (mapAfter ops).owner name) ∧
      ∀ chainId' ops', mapAfter ops' = mapAfter ops →
        (storeAfter chainId' ops').accounts = (storeAfter chainId ops).accounts ∧
          (storeAfter chainId' ops').names = (storeAfter chainId ops).names ∧
          ∀ P, acStateRoot P (storeAfter chainId' ops') =
            acStateRoot P (storeAfter chainId ops) := by
  have h := represents_after chainId ops
  refine ⟨(storeAfter chainId ops).accounts_sorted, h.stored, (storeAfter chainId ops).names_sorted,
    (storeAfter chainId ops).names_valid, h.get_eq, h.owner_eq, fun chainId' ops' hmap => ?_⟩
  have h' := represents_after chainId' ops'
  rw [hmap] at h'
  obtain ⟨haccounts, hnames⟩ := h'.unique h
  refine ⟨haccounts, hnames, fun P => ?_⟩
  rw [acStateRoot, acStateRoot, rootBuffers, rootBuffers, haccounts, hnames]

/-- An account that is filled and emptied again leaves no trace. -/
theorem store_refines_maps_emptied :
    (storeAfter 1 [.credit (ByteArr.fill 32 7) 5, .credit (ByteArr.fill 32 3) 1,
        .debit (ByteArr.fill 32 3) 1]).accounts =
      (storeAfter 1 [.credit (ByteArr.fill 32 7) 5]).accounts := by
  refine ((store_refines_maps 1 [.credit (ByteArr.fill 32 7) 5]).2.2.2.2.2.2 1
    [.credit (ByteArr.fill 32 7) 5, .credit (ByteArr.fill 32 3) 1, .debit (ByteArr.fill 32 3) 1]
    ?_).1
  refine congrArg (fun account => StoreMap.mk account fun _ => none) (funext fun addr => ?_)
  simp only [Function.update_apply]
  by_cases haddr : addr = ByteArr.fill 32 3
  · rw [haddr]
    decide
  · simp only [StoreMap.exec, StoreMap.setBalance, Function.update_apply, haddr, if_false]

end AgentChain
