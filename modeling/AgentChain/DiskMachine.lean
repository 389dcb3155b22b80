import AgentChain.DataFiles
import Mathlib.Logic.Relation

/-!
# A machine with a data directory

One process at a time works on the data directory: it opens the chain, which writes three files
when there is none, and it accepts blocks, which writes three files each.  Every system call of
these writes is a step, and between any two of them the process can be killed and the power can
fail.

For the store, opening and accepting are single steps in which each write is done or not done.  The
machine refines the store: what is in its files is at every moment what some run of the store has
left.
-/

namespace AgentChain

open Journal Trace Relation

/-! ### The store -/

/-- A step of the store: a directory, and the chain of the process that has it open. -/
inductive StoreStep (P : Platform) : DataDir × Option Chain → DataDir × Option Chain → Prop
  | opens (w : Writes) (g : Option Genesis) {d : DataDir} {c : Chain}
      (hopen : acChainOpen P w d g = some c) : StoreStep P (d, none) (c.dir, some c)
  /-- The process stops in `chain_apply_genesis`. -/
  | genesisStops (w : Writes) (g : Genesis) {d : DataDir} (hnone : d.metaBin = none) :
      StoreStep P (d, none) ((chainApplyGenesis P w d g).2.dir, none)
  | accepts (now : UInt64) (w : Writes) (c : Chain) (b : Block) :
      StoreStep P (c.dir, some c) ((acChainAcceptBlock P now w c b).2.dir,
        some (acChainAcceptBlock P now w c b).2)
  /-- Something else uses the chain. -/
  | seeded {c d : Chain} (h : c.Reseeded P d) : StoreStep P (c.dir, some c) (d.dir, some d)
  | stops (d : DataDir) (c : Chain) : StoreStep P (d, some c) (d, none)

/-! ### The machine -/

/-- What writes files. -/
inductive Job where
  | accept (now : UInt64) (c : Chain) (b : Block)
  | genesis (d : DataDir) (g : Genesis)

/-- The directory in front of a job. -/
def Job.before : Job → DataDir
  | .accept _ c _ => c.dir
  | .genesis d _ => d

/-- The chain in front of a job. -/
def Job.chain : Job → Option Chain
  | .accept _ c _ => some c
  | .genesis _ _ => none

/-- The process. -/
inductive Process where
  | down
  | idle (c : Chain)
  /-- `done` files of the job are written, and the next one is at `pc`. -/
  | busy (job : Job) (done : ℕ) (pc : WritePc)

/-- A machine. -/
structure Machine where
  fs : Files
  proc : Process

section Machine

variable (P : Platform)

/-- The files of a job, in their order. -/
def Job.writes : Job → List (DataFile × Bytes)
  | .accept now c b => acceptWrites P now c b
  | .genesis d g => genesisWrites P d g

/-- The chain behind a job that did its first writes, if there is one. -/
def Job.after (k : ℕ) : Job → Option Chain
  | .accept now c b => some (acChainAcceptBlock P now (.first k) c b).2
  | .genesis d g =>
      let r := chainApplyGenesis P (.firstGenesis k) d g
      if r.1 then some (txIndexRebuild P r.2) else none

/-- The process behind a call that returns a chain, or that makes the node exit. -/
def Process.behind : Option Chain → Process
  | some c => .idle c
  | none => .down

/-- The data directory that a process finds. -/
def Machine.view (dir : Bytes) (m : Machine) : DataDir := dataView dir m.fs.read

/-- A process that stops behind `rename` leaves the directory in memory. -/
def Process.left : Process → List FileEvent
  | .busy _ _ .forcing => [.unforced]
  | _ => []

/-- One step of the machine with the data directory `dir`. -/
inductive Machine.Step (dir : Bytes) : Machine → List FileEvent → Machine → Prop
  /-- `ac_chain_open` of a chain that is there -/
  | reopen (fs : Files) {buf : Bytes} {c : Chain}
      (hmeta : (Machine.view dir ⟨fs, .down⟩).metaBin = some buf)
      (hopen : openExisting P (Machine.view dir ⟨fs, .down⟩) buf = some c) :
      Step dir ⟨fs, .down⟩ [] ⟨fs, .idle c⟩
  /-- `ac_chain_open` goes on to `chain_apply_genesis` -/
  | genesis (fs : Files) (g : Genesis)
      (hnone : (Machine.view dir ⟨fs, .down⟩).metaBin = none) :
      Step dir ⟨fs, .down⟩ [] ⟨fs, .busy (.genesis (Machine.view dir ⟨fs, .down⟩) g) 0 .opening⟩
  /-- a call of `ac_chain_accept_block` -/
  | call (fs : Files) (now : UInt64) (c : Chain) (b : Block) :
      Step dir ⟨fs, .idle c⟩ [] ⟨fs, .busy (.accept now c b) 0 .opening⟩
  | seeded (fs : Files) {c d : Chain} (h : c.Reseeded P d) : Step dir ⟨fs, .idle c⟩ [] ⟨fs, .idle d⟩
  /-- a system call -/
  | write (job : Job) (k : ℕ) {f : DataFile} {buf : Bytes}
      (hfile : (job.writes P)[k]? = some (f, buf)) {s s' : WritePc × Files} {new : List FileEvent}
      (hs : WriteStep (f.path dir) buf s new s') :
      Step dir ⟨s.2, .busy job k s.1⟩ new ⟨s'.2, .busy job k s'.1⟩
  | next (fs : Files) (job : Job) (k : ℕ) (hlt : k < (job.writes P).length) :
      Step dir ⟨fs, .busy job k (.returned true)⟩ [] ⟨fs, .busy job (k + 1) .opening⟩
  /-- All files are written. -/
  | finish (fs : Files) (job : Job) :
      Step dir ⟨fs, .busy job (job.writes P).length .opening⟩ []
        ⟨fs, .behind (job.after P (job.writes P).length)⟩
  /-- A file could not be written. -/
  | abort (fs : Files) (job : Job) (k : ℕ) :
      Step dir ⟨fs, .busy job k (.returned false)⟩ [] ⟨fs, .behind (job.after P k)⟩
  | kill (fs : Files) (proc : Process) : Step dir ⟨fs, proc⟩ proc.left ⟨fs, .down⟩
  | cut {fs fs' : Files} (proc : Process) (hlost : fs.Lost fs') :
      Step dir ⟨fs, proc⟩ [.cut] ⟨fs', .down⟩

end Machine

/-! ### Jobs in the store -/

section Jobs

variable {P : Platform}

/-- The directory of a job that did its first writes. -/
def Job.dirAfter (P : Platform) (k : ℕ) (job : Job) : DataDir :=
  job.before.puts ((job.writes P).take k)

lemma dir_txIndexRebuild (c : Chain) : (txIndexRebuild P c).dir = c.dir := by
  have hcore := congrArg Chain.dir (txIndexRebuild_core (P := P) c)
  exact hcore

/-- A chain that is opened has the directory that it was opened from. -/
lemma dir_openExisting {d : DataDir} {buf : Bytes} {c : Chain}
    (h : openExisting P d buf = some c) : c.dir = d := by
  rw [openExisting] at h
  cases hm : metaLoad buf with
  | none =>
    rw [hm] at h
    cases h
  | some m =>
    rw [hm] at h
    cases hstate : d.stateBin with
    | none =>
      rw [hstate] at h
      cases h
    | some state =>
      rw [hstate] at h
      dsimp only at h
      split_ifs at h
      rw [← Option.some.inj h]
      exact dir_txIndexRebuild _

/-- What the store has in front of a job. -/
structure Job.Starts (job : Job) (s : DataDir × Option Chain) : Prop where
  eq : s = (job.before, job.chain)
  fresh : job.chain = none → job.before.metaBin = none

/-- A job that ends behind its first writes. -/
lemma Job.Starts.settles {job : Job} {s : DataDir × Option Chain} (h : job.Starts s) (k : ℕ) :
    ReflTransGen (StoreStep P) s (job.dirAfter P k, job.after P k) ∧
      ∀ c, job.after P k = some c → c.dir = job.dirAfter P k := by
  obtain ⟨rfl, hfresh⟩ := h
  cases job with
  | accept now c b =>
    have hdir := dir_acceptBlock (P := P) now k c b
    refine ⟨.single ?_, fun d hd => ?_⟩
    · have hstep := StoreStep.accepts (P := P) now (.first k) c b
      rwa [hdir] at hstep
    · rw [← Option.some.inj hd]
      exact hdir
  | genesis d g =>
    have hdir := dir_applyGenesis (P := P) k d g
    have hmeta : d.metaBin = none := hfresh rfl
    simp only [Job.after]
    split_ifs with hok
    · have hsame : (txIndexRebuild P (chainApplyGenesis P (.firstGenesis k) d g).2).dir =
          Job.dirAfter P k (.genesis d g) := (dir_txIndexRebuild _).trans hdir
      have hopen : acChainOpen P (.firstGenesis k) d (some g) =
          some (txIndexRebuild P (chainApplyGenesis P (.firstGenesis k) d g).2) := by
        rw [acChainOpen, hmeta]
        exact if_pos hok
      refine ⟨.single ?_, fun c hc => Option.some.inj hc ▸ hsame⟩
      have hstep := StoreStep.opens _ _ hopen
      rwa [hsame] at hstep
    · refine ⟨.single ?_, fun _ hc => hc.elim⟩
      have hstep := StoreStep.genesisStops (P := P) (.firstGenesis k) g hmeta
      rwa [hdir] at hstep

/-- A process that stops behind the first writes of its job. -/
lemma Job.Starts.stops {job : Job} {s : DataDir × Option Chain} (h : job.Starts s) (k : ℕ) :
    ReflTransGen (StoreStep P) s (job.dirAfter P k, none) := by
  have hsettles := (h.settles (P := P) k).1
  cases hafter : job.after P k with
  | none => rwa [hafter] at hsettles
  | some c =>
    rw [hafter] at hsettles
    exact hsettles.tail (.stops _ c)

end Jobs

/-! ### The refinement -/

section Refinement

variable {P : Platform} {dir : Bytes} {es new : List FileEvent} {m m' : Machine}
  {s : DataDir × Option Chain} {job : Job} {k : ℕ} {pc : WritePc} {fs fs' : Files} {d : DataDir}

/-- The files show the directory `d`, and nothing else comes back unless a directory was left in
memory. -/
def Shows (dir : Bytes) (es : List FileEvent) (fs : Files) (d : DataDir) : Prop :=
  ∃ olds cur frozen, Keeps (dataPaths dir) olds cur frozen fs ∧ dataView dir cur = d ∧
    (.unforced ∉ es → olds = fun _ => ∅)

/-- The job has written its first `k` files, and the next one, if there is one, is at `pc`. -/
def Working (P : Platform) (dir : Bytes) (es : List FileEvent) (job : Job) (k : ℕ) (pc : WritePc)
    (fs : Files) : Prop :=
  ∃ olds cur frozen, dataView dir cur = job.dirAfter P k ∧ (.unforced ∉ es → olds = fun _ => ∅) ∧
    ((k = (job.writes P).length ∧ pc = .opening ∧ Keeps (dataPaths dir) olds cur frozen fs) ∨
      ∃ f buf, (job.writes P)[k]? = some (f, buf) ∧
        WriteInv (dataPaths dir) olds cur frozen (f.path dir) buf es (pc, fs))

lemma Shows.mono (h : Shows dir es fs d) (new : List FileEvent) : Shows dir (es ++ new) fs d := by
  obtain ⟨olds, cur, frozen, hkeeps, hview, holds⟩ := h
  exact ⟨olds, cur, frozen, hkeeps, hview, fun hnot => holds fun hmem =>
    hnot (List.mem_append_left _ hmem)⟩

/-- A process finds the directory that the files show. -/
lemma Shows.view_eq (h : Shows dir es fs d) (proc : Process) : Machine.view dir ⟨fs, proc⟩ = d := by
  obtain ⟨olds, cur, frozen, hkeeps, rfl, -⟩ := h
  have hread : ∀ f : DataFile, fs.read (f.path dir) = cur (f.path dir) :=
    fun f => hkeeps.shows _ ⟨f, rfl⟩
  rw [Machine.view, dataView, dataView, hread, hread]
  exact congrArg (DataDir.mk · _ _) (funext fun height => hread (.block height))

/-- The next file of a job. -/
lemma Working.enter (hk : k ≤ (job.writes P).length) (h : Shows dir es fs (job.dirAfter P k)) :
    Working P dir es job k .opening fs := by
  obtain ⟨olds, cur, frozen, hkeeps, hview, holds⟩ := h
  refine ⟨olds, cur, frozen, hview, holds, ?_⟩
  rcases hk.lt_or_eq with hlt | heq
  · exact Or.inr ⟨_, _, List.getElem?_eq_getElem hlt, hkeeps⟩
  · exact Or.inl ⟨heq, rfl, hkeeps⟩

/-- A system call. -/
lemma Working.step (h : Working P dir es job k pc fs) (hdir : dir.length ≤ 501) {f : DataFile}
    {buf : Bytes} (hfile : (job.writes P)[k]? = some (f, buf)) {pc' : WritePc}
    (hs : WriteStep (f.path dir) buf (pc, fs) new (pc', fs')) :
    Working P dir (es ++ new) job k pc' fs' := by
  obtain ⟨olds, cur, frozen, hview, holds, hwhere⟩ := h
  refine ⟨olds, cur, frozen, hview, fun hnot => holds fun hmem =>
    hnot (List.mem_append_left _ hmem), Or.inr ⟨f, buf, hfile, ?_⟩⟩
  have hinv : WriteInv (dataPaths dir) olds cur frozen (f.path dir) buf es (pc, fs) := by
    rcases hwhere with ⟨rfl, rfl, -⟩ | ⟨f', buf', hfile', hinv⟩
    · rw [List.getElem?_eq_none le_rfl] at hfile
      cases hfile
    · cases hfile.symm.trans hfile'
      exact hinv
  exact hinv.step ⟨f, rfl⟩ (tmpPath_notMem hdir _) hs

/-- A view of the present file. -/
lemma Working.dirAfter_eq (hdir : dir.length ≤ 501) {f : DataFile} {buf : Bytes}
    {cur v : Bytes → Option Bytes} (hview : dataView dir cur = job.dirAfter P k)
    (hfile : (job.writes P)[k]? = some (f, buf))
    (hv : v = cur ∨ v = written cur (f.path dir) buf) : ∃ j, dataView dir v = job.dirAfter P j := by
  rcases hv with rfl | rfl
  · exact ⟨k, hview⟩
  · refine ⟨k + 1, ?_⟩
    rw [dataView_written hdir, hview, Job.dirAfter, Job.dirAfter, puts_take_succ _ hfile]

/-- The process is killed. -/
lemma Working.kill (h : Working P dir es job k pc fs) (hdir : dir.length ≤ 501) :
    ∃ j, Shows dir (es ++ (Process.busy job k pc).left) fs (job.dirAfter P j) := by
  obtain ⟨olds, cur, frozen, hview, holds, ⟨-, -, hkeeps⟩ | ⟨f, buf, hfile, hinv⟩⟩ := h
  · exact ⟨k, Shows.mono ⟨olds, cur, frozen, hkeeps, hview, holds⟩ _⟩
  · obtain ⟨olds', frozen', v, hkeeps, hv, holds'⟩ := hinv.shows
    obtain ⟨j, hj⟩ := Working.dirAfter_eq hdir hview hfile hv
    refine ⟨j, olds', v, frozen', hkeeps, hj, fun hnot => ?_⟩
    have hes : .unforced ∉ es := fun hmem => hnot (List.mem_append_left _ hmem)
    have hpc : pc ≠ .forcing := by
      rintro rfl
      exact hnot (List.mem_append_right _ (List.mem_singleton.mpr rfl))
    rcases holds' hes hpc with heq | heq
    · rw [heq, holds hes]
    · rw [heq, holds hes]
      exact update_empty _

/-- The file is written. -/
lemma Working.next (h : Working P dir es job k (.returned true) fs) (hdir : dir.length ≤ 501)
    (hlt : k < (job.writes P).length) : Working P dir es job (k + 1) .opening fs := by
  obtain ⟨olds, cur, frozen, hview, holds,
    ⟨-, hpc, -⟩ | ⟨f, buf, hfile, file, hkeeps, hforced⟩⟩ := h
  · cases hpc
  have hnew : dataView dir (written cur (f.path dir) buf) = job.dirAfter P (k + 1) := by
    rw [dataView_written hdir, hview, Job.dirAfter, Job.dirAfter, puts_take_succ _ hfile]
  refine Working.enter hlt ?_
  by_cases hes : .unforced ∈ es
  · exact ⟨_, _, _, hkeeps, hnew, fun hnot => absurd hes hnot⟩
  · refine ⟨_, _, _, hforced hes, hnew, fun _ => ?_⟩
    rw [holds hes]
    exact update_empty _

/-- The process gives up, or has nothing left to do. -/
lemma Working.ends (h : Working P dir es job k pc fs)
    (hpc : pc = .returned false ∨ k = (job.writes P).length ∧ pc = .opening) :
    Shows dir es fs (job.dirAfter P k) := by
  obtain ⟨olds, cur, frozen, hview, holds, ⟨-, -, hkeeps⟩ | ⟨f, buf, hfile, hinv⟩⟩ := h
  · exact ⟨olds, cur, frozen, hkeeps, hview, holds⟩
  · rcases hpc with rfl | ⟨-, rfl⟩
    · exact ⟨olds, cur, frozen, hinv, hview, holds⟩
    · exact ⟨olds, cur, frozen, hinv, hview, holds⟩

/-- The power fails while nothing is written. -/
lemma Shows.cut (h : Shows dir es fs d) (hes : .unforced ∉ es) (hlost : fs.Lost fs') :
    Shows dir (es ++ [.cut]) fs' d := by
  obtain ⟨olds, cur, frozen, hkeeps, hview, holds⟩ := h
  rw [holds hes] at hkeeps
  obtain ⟨pick, hpick, hnew⟩ := hkeeps.lost hlost
  have hsame : (fun n => pick (parentDir n) n) = cur :=
    funext fun n => congrFun ((Set.mem_insert_iff.mp (hpick _)).resolve_right id) n
  rw [hsame] at hnew
  exact ⟨_, _, _, hnew, hview, fun _ => rfl⟩

/-- The power fails in a job. -/
lemma Working.cut (h : Working P dir es job k pc fs) (hdir : dir.length ≤ 501)
    (hes : .unforced ∉ es) (hlost : fs.Lost fs') :
    ∃ j, Shows dir (es ++ [.cut]) fs' (job.dirAfter P j) := by
  obtain ⟨olds, cur, frozen, hview, holds, ⟨-, -, hkeeps⟩ | ⟨f, buf, hfile, hinv⟩⟩ := h
  · have hshows : Shows dir es fs (job.dirAfter P k) := ⟨olds, cur, frozen, hkeeps, hview, holds⟩
    exact ⟨k, hshows.cut hes hlost⟩
  · rw [holds hes] at hinv
    obtain ⟨frozen', v, hnew, hv⟩ := hinv.lost hes hlost
    obtain ⟨j, hj⟩ := Working.dirAfter_eq hdir hview hfile hv
    exact ⟨j, _, _, _, hnew, hj, fun _ => rfl⟩

/-- The machine is where the store is, or in a job that the store has in front of it. -/
def Refines (P : Platform) (dir : Bytes) (es : List FileEvent) (m : Machine)
    (s : DataDir × Option Chain) : Prop :=
  match m.proc with
  | .down => s.2 = none ∧ Shows dir es m.fs s.1
  | .idle c => s = (c.dir, some c) ∧ Shows dir es m.fs c.dir
  | .busy job k pc => job.Starts s ∧ Working P dir es job k pc m.fs

/-- A job that ends. -/
lemma Refines.behind (hstarts : job.Starts s) (h : Shows dir es fs (job.dirAfter P k)) :
    ∃ t, ReflTransGen (StoreStep P) s t ∧ Refines P dir es ⟨fs, .behind (job.after P k)⟩ t := by
  obtain ⟨hrun, hsame⟩ := hstarts.settles (P := P) k
  refine ⟨_, hrun, ?_⟩
  cases hafter : job.after P k with
  | none => exact ⟨rfl, h⟩
  | some c =>
    have hc := hsame c hafter
    exact ⟨by rw [hc], hc ▸ h⟩

/-- **A step of the machine is a run of the store.** -/
theorem Refines.step (hdir : dir.length ≤ 501) (h : Refines P dir es m s)
    (hs : Machine.Step P dir m new m') (hcut : .cut ∈ new → .unforced ∉ es) :
    ∃ t, ReflTransGen (StoreStep P) s t ∧ Refines P dir (es ++ new) m' t := by
  cases hs with
  | @reopen fs buf c hmeta hopen =>
    obtain ⟨d, o⟩ := s
    obtain ⟨rfl, hshows⟩ := h
    rw [hshows.view_eq] at hmeta hopen
    have hsome : acChainOpen P .all d none = some c := by
      rw [acChainOpen, hmeta]
      exact hopen
    have hc : c.dir = d := dir_openExisting hopen
    refine ⟨_, .single (.opens _ _ hsome), rfl, ?_⟩
    rw [hc, List.append_nil]
    exact hshows
  | genesis fs g hnone =>
    obtain ⟨d, o⟩ := s
    obtain ⟨rfl, hshows⟩ := h
    rw [hshows.view_eq] at hnone ⊢
    rw [List.append_nil]
    exact ⟨_, .refl, ⟨rfl, fun _ => hnone⟩, Working.enter (Nat.zero_le _) hshows⟩
  | call fs now c b =>
    obtain ⟨rfl, hshows⟩ := h
    rw [List.append_nil]
    exact ⟨_, .refl, ⟨rfl, fun hc => absurd hc (Option.some_ne_none c)⟩,
      Working.enter (Nat.zero_le _) hshows⟩
  | seeded fs hseed =>
    obtain ⟨rfl, hshows⟩ := h
    have hd := hseed.same.dir_eq
    rw [List.append_nil]
    exact ⟨_, .single (.seeded hseed), rfl, hd ▸ hshows⟩
  | write job k hfile hs => exact ⟨s, .refl, h.1, h.2.step hdir hfile hs⟩
  | next fs job k hlt =>
    rw [List.append_nil]
    exact ⟨s, .refl, h.1, h.2.next hdir hlt⟩
  | finish fs job =>
    rw [List.append_nil]
    exact Refines.behind h.1 (h.2.ends (Or.inr ⟨rfl, rfl⟩))
  | abort fs job k =>
    rw [List.append_nil]
    exact Refines.behind h.1 (h.2.ends (Or.inl rfl))
  | kill fs proc =>
    cases proc with
    | down => exact ⟨s, .refl, h.1, h.2.mono _⟩
    | idle c =>
      obtain ⟨rfl, hshows⟩ := h
      exact ⟨_, .single (.stops _ c), rfl, hshows.mono _⟩
    | busy job k pc =>
      obtain ⟨j, hj⟩ := h.2.kill hdir
      exact ⟨_, h.1.stops j, rfl, hj⟩
  | cut proc hlost =>
    have hes := hcut (List.mem_singleton.mpr rfl)
    cases proc with
    | down => exact ⟨s, .refl, h.1, h.2.cut hes hlost⟩
    | idle c =>
      obtain ⟨rfl, hshows⟩ := h
      exact ⟨_, .single (.stops _ c), rfl, hshows.cut hes hlost⟩
    | busy job k pc =>
      obtain ⟨j, hj⟩ := h.2.cut hdir hes hlost
      exact ⟨_, h.1.stops j, rfl, hj⟩

/-- No directory was left in memory when the power failed. -/
def CutsForced (es : List FileEvent) : Prop :=
  ∀ before after, es = before ++ .cut :: after → .unforced ∉ before

/-- Where the machine refines the store, its files are what a run of the store has left. -/
lemma Refines.shown (hdir : dir.length ≤ 501) (h : Refines P dir es m s) :
    ∃ o, ReflTransGen (StoreStep P) s (m.view dir, o) ∧ ∀ c, m.proc = .idle c → o = some c := by
  obtain ⟨fs, proc⟩ := m
  cases proc with
  | down =>
    obtain ⟨d, o⟩ := s
    obtain ⟨rfl, hshows⟩ := h
    rw [hshows.view_eq]
    exact ⟨none, .refl, fun c hc => Process.noConfusion hc⟩
  | idle c =>
    obtain ⟨rfl, hshows⟩ := h
    rw [hshows.view_eq]
    exact ⟨some c, .refl, fun d hd => congrArg some (Process.idle.inj hd)⟩
  | busy job k pc =>
    obtain ⟨j, hj⟩ := h.2.kill hdir
    rw [hj.view_eq]
    exact ⟨none, h.1.stops j, fun c hc => Process.noConfusion hc⟩

/-- **The machine refines the store.**  Wherever a run of the machine stands, its files are what a
run of the store has left, and the chain of an idle process is the chain of that run. -/
theorem machine_refines_store (hdir : dir.length ≤ 501) {fs : Files} {cur : Bytes → Option Bytes}
    {frozen : Set ℕ} (hfiles : Keeps (dataPaths dir) (fun _ => ∅) cur frozen fs)
    (hrun : Run (Machine.Step P dir) ⟨fs, .down⟩ es m) (hcuts : CutsForced es) :
    ∃ o, ReflTransGen (StoreStep P) (dataView dir cur, none) (m.view dir, o) ∧
      ∀ c, m.proc = .idle c → o = some c := by
  have hinv : ∃ s, ReflTransGen (StoreStep P) (dataView dir cur, none) s ∧
      Refines P dir es m s := by
    refine hrun.invariant (I := fun es m => CutsForced es → ∃ s,
      ReflTransGen (StoreStep P) (dataView dir cur, none) s ∧ Refines P dir es m s)
      (fun _ => ⟨_, .refl, rfl, _, _, _, hfiles, rfl, fun _ => rfl⟩) ?_ hcuts
    intro es m new m' ih hs hcuts
    have hpre : CutsForced es := by
      rintro before after rfl
      exact hcuts before (after ++ new) (by simp)
    have hcut : .cut ∈ new → .unforced ∉ es := by
      intro hmem
      obtain ⟨a, b, rfl⟩ := List.append_of_mem hmem
      have hnot := hcuts (es ++ a) b (by simp)
      exact fun hes => hnot (List.mem_append_left _ hes)
    obtain ⟨s, hstore, hrefines⟩ := ih hpre
    obtain ⟨t, ht, hnew⟩ := hrefines.step hdir hs hcut
    exact ⟨t, hstore.trans ht, hnew⟩
  obtain ⟨s, hs, hrefines⟩ := hinv
  obtain ⟨o, ho, hidle⟩ := hrefines.shown hdir
  exact ⟨o, hs.trans ho, hidle⟩

end Refinement

/-! ### A power cut in the first write -/

/-- A machine without files. -/
def bareFiles : Files := FileSys.empty none

/-- The genesis that the machine starts with. -/
def firstJob : Job := .genesis (Machine.view (ascii "/d") ⟨bareFiles, .down⟩) referenceGenesis

/-- The name of the first file. -/
def firstPath : Bytes := DataFile.path (ascii "/d") (.block 0)

/-- The temporary file is written, and not forced out. -/
def openedFiles : Files :=
  (bareFiles.openTrunc (tmpPath firstPath)).2.append (bareFiles.openTrunc (tmpPath firstPath)).1
    (((blockBytes (genesisBlock reference referenceGenesis)).drop 0).take
      (blockBytes (genesisBlock reference referenceGenesis)).length)

/-- The files behind the power cut. -/
def cutFiles : Files := bareFiles.reserve (parentDir (tmpPath firstPath))

lemma lost_openedFiles : openedFiles.Lost cutFiles where
  names_eq := ⟨fun _ => bareFiles.names, fun _ => List.mem_cons_of_mem _ List.mem_cons_self, rfl⟩
  past_eq := rfl
  data_eq := fun i hi => by
    -- the only file with contents is the one that was not forced out
    rcases eq_or_ne i 0 with rfl | hne
    · cases hi
    · exact ((Function.update_of_ne hne _ _).trans (Function.update_of_ne hne _ _)).symm
  synced_eq := fun _ => rfl
  next_eq := rfl

/-- The machine has no file of a chain behind the power cut. -/
theorem machine_refines_store_cut :
    (Machine.view (ascii "/d") ⟨openedFiles, .down⟩).metaBin = none ∧
    ∃ o, ReflTransGen (StoreStep reference)
      (dataView (ascii "/d") fun _ => none, none)
      (Machine.view (ascii "/d") ⟨cutFiles, .down⟩, o) ∧
      ∀ c, Process.down = .idle c → o = some c := by
  have hstart : Run (Machine.Step reference (ascii "/d")) ⟨bareFiles, .down⟩ []
      ⟨bareFiles, .busy firstJob 0 .opening⟩ := .single (.genesis bareFiles referenceGenesis rfl)
  have hopened : WriteStep firstPath (blockBytes (genesisBlock reference referenceGenesis))
      (.opening, bareFiles) [] (.writing (bareFiles.openTrunc (tmpPath firstPath)).1 0,
        (bareFiles.openTrunc (tmpPath firstPath)).2) := .opened bareFiles (by decide)
  have hwrote : WriteStep firstPath (blockBytes (genesisBlock reference referenceGenesis))
      (.writing (bareFiles.openTrunc (tmpPath firstPath)).1 0,
        (bareFiles.openTrunc (tmpPath firstPath)).2) []
      (.writing (bareFiles.openTrunc (tmpPath firstPath)).1
        (0 + (blockBytes (genesisBlock reference referenceGenesis)).length), openedFiles) :=
    .wrote _ _ 0 _ (Nat.zero_add _).le
  have hrun := ((hstart.tail (.write firstJob 0 rfl hopened)).tail
    (.write firstJob 0 rfl hwrote)).tail (.cut _ lost_openedFiles)
  refine ⟨rfl, machine_refines_store (by decide) (Keeps.empty none) hrun ?_⟩
  intro before after heq
  rcases before with _ | ⟨e, before⟩
  · exact List.not_mem_nil
  · exact absurd (congrArg List.length heq) (by simp)

end AgentChain
