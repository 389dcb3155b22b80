import AgentChain.AtomicFile
import AgentChain.Crash
import AgentChain.Lib.Decimal

/-!
# The data directory on the disk

The chain keeps its blocks, `state.bin` and `meta.bin` in files, and writes each of them with
`ac_file_write_atomic`.  A machine runs one process after the other on such a directory: a process
opens the chain and accepts blocks, and it can be killed at every system call, or the power can
fail.

The store of the other modules, in which a write is done or not done, is what this machine shows:
every run of the machine is a run of the store (`machine_refines_store`), as long as no directory
was left in memory when the power failed.
-/

namespace AgentChain

open Journal Trace

/-! ### Names -/

/-- `blocks_dir` of the chain; `snprintf` cuts off what does not fit. -/
def blocksDir (dir : Bytes) : Bytes := (dir ++ ascii "/blocks").take 511

/-- The files of a chain. -/
inductive DataFile where
  | block (height : UInt64)
  | state
  | metaFile
deriving DecidableEq

/-- `block_path`, `state_path` and `meta_path` -/
def DataFile.path (dir : Bytes) : DataFile → Bytes
  | .block height => (blocksDir dir ++ 47 :: (padDec 12 height.toNat ++ ascii ".blk")).take 1023
  | .state => (dir ++ ascii "/state.bin").take 511
  | .metaFile => (dir ++ ascii "/meta.bin").take 511

/-- The names of all files of a chain. -/
def dataPaths (dir : Bytes) : Set Bytes := Set.range (DataFile.path dir)

section Names

variable {dir : Bytes}

lemma length_padDec_le (height : UInt64) : (padDec 12 height.toNat).length ≤ 20 := by
  have hlt := height.toNat_lt
  have hlen := length_printDec_le (n := height.toNat) (k := 20) (by decide) (by omega)
  rw [padDec, List.length_append, List.length_replicate]
  omega

/-- A short directory: nothing is cut off. -/
lemma path_eq (hdir : dir.length ≤ 501) (f : DataFile) :
    f.path dir = dir ++ match f with
      | .block height => ascii "/blocks" ++ 47 :: (padDec 12 height.toNat ++ ascii ".blk")
      | .state => ascii "/state.bin"
      | .metaFile => ascii "/meta.bin" := by
  have hblocks : (ascii "/blocks").length = 7 := rfl
  cases f with
  | block height =>
    have hpad := length_padDec_le height
    have hblk : (ascii ".blk").length = 4 := rfl
    rw [DataFile.path, blocksDir, List.take_of_length_le (l := dir ++ ascii "/blocks"),
      List.take_of_length_le, List.append_assoc]
    · simp only [List.length_append, List.length_cons]
      omega
    · rw [List.length_append]
      omega
  | state =>
    have hstate : (ascii "/state.bin").length = 10 := rfl
    rw [DataFile.path, List.take_of_length_le]
    rw [List.length_append]
    omega
  | metaFile =>
    have hmeta : (ascii "/meta.bin").length = 9 := rfl
    rw [DataFile.path, List.take_of_length_le]
    rw [List.length_append]
    omega

/-- The last byte of a name. -/
lemma getLast?_path (hdir : dir.length ≤ 501) (f : DataFile) :
    (f.path dir).getLast? = match f with | .block _ => some 107 | _ => some 110 := by
  rw [path_eq hdir]
  cases f with
  | block height =>
    have hcat : dir ++ (ascii "/blocks" ++ 47 :: (padDec 12 height.toNat ++ ascii ".blk")) =
        (dir ++ (ascii "/blocks" ++ 47 :: (padDec 12 height.toNat ++ ascii ".bl"))) ++ [107] := by
      simp [ascii]
    rw [hcat, List.getLast?_concat]
  | state =>
    rw [show ascii "/state.bin" = ascii "/state.bi" ++ [110] from rfl, ← List.append_assoc,
      List.getLast?_concat]
  | metaFile =>
    rw [show ascii "/meta.bin" = ascii "/meta.bi" ++ [110] from rfl, ← List.append_assoc,
      List.getLast?_concat]

/-- **Every file has a name of its own.** -/
lemma path_injective (hdir : dir.length ≤ 501) : Function.Injective (DataFile.path dir) := by
  intro f f' h
  have hlast := congrArg List.getLast? h
  rw [getLast?_path hdir, getLast?_path hdir] at hlast
  rw [path_eq hdir, path_eq hdir, List.append_cancel_left_eq] at h
  cases f with
  | block height =>
    cases f' with
    | block height' =>
      have hnum := List.append_cancel_right (List.cons.inj (List.append_cancel_left h)).2
      rw [UInt64.toNat_inj.mp (padDec_injective 12 hnum)]
    | state => cases hlast
    | metaFile => cases hlast
  | state =>
    cases f' with
    | block height' => cases hlast
    | state => rfl
    | metaFile => exact absurd h (by decide)
  | metaFile =>
    cases f' with
    | block height' => cases hlast
    | state => exact absurd h (by decide)
    | metaFile => rfl

/-- No file has the name of a temporary one. -/
lemma tmpPath_notMem (hdir : dir.length ≤ 501) (path : Bytes) : tmpPath path ∉ dataPaths dir := by
  rintro ⟨f, hf⟩
  have hlast := congrArg List.getLast? hf
  rw [getLast?_path hdir, tmpPath, show ascii ".tmp" = ascii ".tm" ++ [112] from rfl,
    ← List.append_assoc, List.getLast?_concat] at hlast
  cases f <;> cases hlast

end Names

/-! ### The directory that the names show -/

/-- The data directory that the names show. -/
def dataView (dir : Bytes) (cur : Bytes → Option Bytes) : DataDir :=
  ⟨fun height => cur (DataFile.path dir (.block height)), cur (DataFile.path dir .state),
    cur (DataFile.path dir .metaFile)⟩

/-- One file of the directory is written. -/
def DataDir.put (d : DataDir) : DataFile × Bytes → DataDir
  | (.block height, buf) => { d with blocks := Function.update d.blocks height (some buf) }
  | (.state, buf) => { d with stateBin := some buf }
  | (.metaFile, buf) => { d with metaBin := some buf }

/-- Files are written one after the other. -/
def DataDir.puts (d : DataDir) (ws : List (DataFile × Bytes)) : DataDir := ws.foldl DataDir.put d

lemma puts_take_succ (d : DataDir) {ws : List (DataFile × Bytes)} {k : ℕ} {w : DataFile × Bytes}
    (hw : ws[k]? = some w) : d.puts (ws.take (k + 1)) = (d.puts (ws.take k)).put w := by
  rw [List.take_add_one, hw, DataDir.puts, List.foldl_append]
  rfl

lemma dataView_written {dir : Bytes} (hdir : dir.length ≤ 501) (cur : Bytes → Option Bytes)
    (f : DataFile) (buf : Bytes) :
    dataView dir (written cur (f.path dir) buf) = (dataView dir cur).put (f, buf) := by
  have hself : written cur (f.path dir) buf (f.path dir) = some buf := Function.update_self ..
  have hother : ∀ f', f' ≠ f → written cur (f.path dir) buf (f'.path dir) = cur (f'.path dir) :=
    fun f' hne => Function.update_of_ne (fun h => hne (path_injective hdir h)) _ _
  cases f with
  | block height =>
    have hblocks : (fun k => written cur (DataFile.path dir (.block height)) buf
        (DataFile.path dir (.block k))) =
        Function.update (dataView dir cur).blocks height (some buf) := by
      funext k
      rcases eq_or_ne k height with rfl | hne
      · rw [hself, Function.update_self]
      · rw [Function.update_of_ne hne, hother _ fun h => hne (DataFile.block.inj h)]
        rfl
    rw [dataView, hblocks, hother .state nofun, hother .metaFile nofun]
    rfl
  | state =>
    rw [dataView, hself, hother .metaFile nofun]
    have hblocks : (fun k => written cur (DataFile.path dir .state) buf
        (DataFile.path dir (.block k))) = (dataView dir cur).blocks :=
      funext fun k => hother (.block k) nofun
    rw [hblocks]
    rfl
  | metaFile =>
    rw [dataView, hself, hother .state nofun]
    have hblocks : (fun k => written cur (DataFile.path dir .metaFile) buf
        (DataFile.path dir (.block k))) = (dataView dir cur).blocks :=
      funext fun k => hother (.block k) nofun
    rw [hblocks]
    rfl

/-! ### The files that a call writes -/

section Calls

variable (P : Platform)

/-- The writes of `persist`, in their order. -/
def persistWrites (c : Chain) (b : Block) (blockHash : Hash) : List (DataFile × Bytes) :=
  (.block b.header.height, blockBytes b) ::
    match acStateSerialize P c.state with
    | none => []
    | some buf => [(.state, buf), (.metaFile, metaBytes (c.advance b.header blockHash).toMeta)]

/-- The writes of `ac_chain_accept_block`: none when the block is turned away. -/
def acceptWrites (now : UInt64) (c : Chain) (b : Block) : List (DataFile × Bytes) :=
  match checkHeader P now c b.header with
  | (some _, _) => []
  | (none, c) =>
      if acStateSerialize P c.state = none then []
      else
        let l := runTxs P c.state b
        if !l.ok then []
        else if l.totalGas ≠ b.header.gasUsed then []
        else if acBlockTxRoot P b.txs ≠ b.header.txRoot then []
        else
          let post := { c with state := postState P c.state b }
          if acStateRoot P post.state ≠ b.header.stateRoot then []
          else
            let blockHash := acBlockHash P b.header
            let v := validateCommit P post b blockHash (acChainTotalSqrtStake c)
              (preStakeLookup (preSignerTable c.state b.signers))
            if v.1 then persistWrites P v.2 b blockHash else []

/-- The writes of `chain_apply_genesis`, in their order. -/
def genesisWrites (d : DataDir) (g : Genesis) : List (DataFile × Bytes) :=
  (.block 0, blockBytes (genesisBlock P g)) ::
  (.metaFile, metaBytes (genesisRecord P d g).toMeta) ::
    match acStateSerialize P (genesisState g) with
    | none => []
    | some buf => [(.state, buf)]

/-- The first writes of a block succeed. -/
def Writes.first (k : ℕ) : Writes := ⟨decide (0 < k), decide (1 < k), decide (2 < k)⟩

/-- The first writes of a genesis succeed. -/
def Writes.firstGenesis (k : ℕ) : Writes := ⟨decide (0 < k), decide (2 < k), decide (1 < k)⟩

variable {P}

lemma Chain.SameButCache.dir_eq {c d : Chain} (h : c.SameButCache d) : d.dir = c.dir := by
  rw [h.eq_withCached]

lemma puts_take_nil (d : DataDir) (k : ℕ) : d.puts (([] : List (DataFile × Bytes)).take k) = d := by
  rw [List.take_nil]
  rfl

lemma dir_persist (k : ℕ) (c : Chain) (b : Block) (blockHash : Hash) :
    (persist P (.first k) c b blockHash).2.dir =
      c.dir.puts ((persistWrites P c b blockHash).take k) := by
  rw [persist, persistWrites]
  cases hser : acStateSerialize P c.state with
  | none =>
    rcases k with _ | k
    · rfl
    · simp only [Writes.first, Nat.zero_lt_succ, decide_true, Bool.not_true, Bool.false_eq_true,
        if_false, hser, List.take_succ_cons, List.take_nil]
      rfl
  | some buf =>
    rcases k with _ | _ | _ | k
    · rfl
    · simp [Writes.first, hser, DataDir.puts, DataDir.put, DataDir.putBlock]
    · simp [Writes.first, hser, DataDir.puts, DataDir.put, DataDir.putBlock, Chain.advance]
    · have hall : Writes.first (k + 1 + 1 + 1) = .all := by
        simp [Writes.first, Writes.all]
      simp only [hall, Writes.all, Bool.not_true, Bool.false_eq_true, if_false, hser,
        List.take_succ_cons, List.take_nil]
      rfl

/-- **The directory behind a call** that did its first writes. -/
theorem dir_acceptBlock (now : UInt64) (k : ℕ) (c : Chain) (b : Block) :
    (acChainAcceptBlock P now (.first k) c b).2.dir =
      c.dir.puts ((acceptWrites P now c b).take k) := by
  have hseed := checkHeader_reseeded (P := P) now c b.header
  rw [acChainAcceptBlock, acceptWrites]
  rcases hh : checkHeader P now c b.header with ⟨_ | rc, c'⟩
  · rw [hh] at hseed
    have hdir : c'.dir = c.dir := hseed.same.dir_eq
    rw [← hdir]
    dsimp only
    cases hsnap : acStateSerialize P c'.state with
    | none =>
      rw [if_pos rfl]
      exact (puts_take_nil _ k).symm
    | some snap =>
      have hval := validateCommit_reseeded (P := P) { c' with state := postState P c'.state b } b
        (acBlockHash P b.header) (acChainTotalSqrtStake c')
        (preStakeLookup (preSignerTable c'.state b.signers))
      dsimp only
      rw [if_neg (Option.some_ne_none snap), execBlock]
      dsimp only
      split_ifs with hok hgas hroot hstate hcommit
      · exact (puts_take_nil _ k).symm
      · exact (puts_take_nil _ k).symm
      · exact (puts_take_nil _ k).symm
      · exact (puts_take_nil _ k).symm
      · rw [dir_persist, hval.same.dir_eq]
      · exact hval.same.dir_eq.trans (puts_take_nil _ k).symm
  · rw [hh] at hseed
    exact hseed.same.dir_eq.trans (puts_take_nil _ k).symm

/-- The directory behind a genesis that did its first writes. -/
theorem dir_applyGenesis (k : ℕ) (d : DataDir) (g : Genesis) :
    (chainApplyGenesis P (.firstGenesis k) d g).2.dir = d.puts ((genesisWrites P d g).take k) := by
  rw [chainApplyGenesis, genesisWrites]
  cases hser : acStateSerialize P (genesisState g) with
  | none =>
    rcases k with _ | _ | k
    · rfl
    · rfl
    · simp only [Writes.firstGenesis, Nat.zero_lt_succ, Nat.lt_add_left_iff_pos, decide_true,
        Bool.not_true, Bool.false_eq_true, if_false, List.take_succ_cons, List.take_nil]
      rfl
  | some buf =>
    rcases k with _ | _ | _ | k
    · rfl
    · rfl
    · simp only [Writes.firstGenesis]
      rfl
    · have hall : Writes.firstGenesis (k + 1 + 1 + 1) = .all := by
        simp [Writes.firstGenesis, Writes.all]
      simp only [hall, Writes.all, Bool.not_true, Bool.false_eq_true, if_false,
        List.take_succ_cons, List.take_nil]
      rfl

end Calls

end AgentChain
