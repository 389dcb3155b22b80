import AgentChain.Common
import AgentChain.Lib.Journal
import AgentChain.Lib.Trace

/-!
# Writing a file in one piece

`ac_file_write_atomic` writes a temporary file next to the file, in as many parts as the kernel
wants, forces it out, renames it over the file, and forces out the directory if it can.  A call
that fails anywhere removes the temporary file, if it can.

Wherever a call stands, the file is the old one or the whole new one (`WriteInv.shows`).  The same
holds behind a power cut (`WriteInv.lost`), except that a call which could not force out the
directory may have returned and be undone.
-/

namespace AgentChain

open Journal Trace

/-- The directory that `strrchr` finds in a path. -/
def parentDir (path : Bytes) : Option Bytes :=
  if 47 ∈ path then some (path.reverse.dropWhile (· != 47)).tail.reverse else none

/-- The files of the machine. -/
abbrev Files := FileSys Bytes (Option Bytes) UInt8 parentDir

/-- The name of the temporary file. -/
def tmpPath (path : Bytes) : Bytes := path ++ ascii ".tmp"

/-- Where `ac_file_write_atomic` stands. -/
inductive WritePc where
  /-- before `open` -/
  | opening
  /-- in the loop around `write`, with the bytes that are written -/
  | writing (file written : ℕ)
  /-- behind `fsync` and `close` -/
  | closed (file : ℕ)
  /-- behind `rename` -/
  | forcing
  /-- before `unlink` of the temporary file -/
  | removing
  | returned (ok : Bool)

/-- What happens to the directories: a change is forced out, or left in memory by a call that
returns or stops, or the power fails. -/
inductive FileEvent where
  | forced
  | unforced
  | cut

/-- The temporary file is in the same directory. -/
lemma parentDir_tmpPath (path : Bytes) : parentDir (tmpPath path) = parentDir path := by
  have htmp : (47 : UInt8) ∉ ascii ".tmp" := by decide
  have hmem : 47 ∈ tmpPath path ↔ 47 ∈ path := by
    rw [tmpPath, List.mem_append, or_iff_left htmp]
  rw [parentDir, parentDir, tmpPath, List.reverse_append,
    List.dropWhile_append_of_pos fun c hc => ?_]
  · exact if_congr hmem rfl rfl
  · rw [bne_iff_ne]
    rintro rfl
    exact htmp (List.mem_reverse.mp hc)

/-- One system call of `ac_file_write_atomic`. -/
inductive WriteStep (path buf : Bytes) : WritePc × Files → List FileEvent → WritePc × Files → Prop
  /-- The name of the temporary file does not fit, or it cannot be opened. -/
  | refused (fs : Files) : WriteStep path buf (.opening, fs) [] (.returned false, fs)
  | opened (fs : Files) (hlen : (tmpPath path).length < 1024) :
      WriteStep path buf (.opening, fs) []
        (.writing (fs.openTrunc (tmpPath path)).1 0, (fs.openTrunc (tmpPath path)).2)
  /-- `write` takes some of the bytes; it may be interrupted and take none. -/
  | wrote (fs : Files) (file written k : ℕ) (hk : written + k ≤ buf.length) :
      WriteStep path buf (.writing file written, fs) []
        (.writing file (written + k), fs.append file ((buf.drop written).take k))
  /-- `write` or `fsync` fails. -/
  | failed (fs : Files) (file written : ℕ) :
      WriteStep path buf (.writing file written, fs) [] (.removing, fs)
  | synced (fs : Files) (file : ℕ) :
      WriteStep path buf (.writing file buf.length, fs) [] (.closed file, fs.sync file)
  | renamed (fs : Files) (file : ℕ) (hfile : fs.names (tmpPath path) = some file) :
      WriteStep path buf (.closed file, fs) []
        (.forcing, fs.rename (tmpPath path) path file hfile (parentDir_tmpPath path))
  | renameFailed (fs : Files) (file : ℕ) :
      WriteStep path buf (.closed file, fs) [] (.removing, fs)
  | removed (fs : Files) :
      WriteStep path buf (.removing, fs) [] (.returned false, fs.unlink (tmpPath path))
  | removeFailed (fs : Files) : WriteStep path buf (.removing, fs) [] (.returned false, fs)
  | forced (fs : Files) (hdir : (parentDir path).isSome) :
      WriteStep path buf (.forcing, fs) [.forced] (.returned true, fs.syncDir (parentDir path))
  /-- The directory cannot be opened or forced out, or the path has none. -/
  | unforced (fs : Files) : WriteStep path buf (.forcing, fs) [.unforced] (.returned true, fs)

/-! ### A call -/

section Write

variable {S : Set Bytes} {olds : Option Bytes → Set (Bytes → Option Bytes)}
  {cur : Bytes → Option Bytes} {frozen : Set ℕ} {path buf : Bytes}

/-- The file holds the new bytes. -/
def written (cur : Bytes → Option Bytes) (path buf : Bytes) : Bytes → Option Bytes :=
  Function.update cur path (some buf)

/-- The directory of the file has shown `cur` before. -/
def outdated (olds : Option Bytes → Set (Bytes → Option Bytes)) (cur : Bytes → Option Bytes)
    (path : Bytes) : Option Bytes → Set (Bytes → Option Bytes) :=
  Function.update olds (parentDir path) (insert cur (olds (parentDir path)))

/-- What holds where a call stands, when `cur` was there before it. -/
def WriteInv (S : Set Bytes) (olds : Option Bytes → Set (Bytes → Option Bytes))
    (cur : Bytes → Option Bytes) (frozen : Set ℕ) (path buf : Bytes) (es : List FileEvent) :
    WritePc × Files → Prop
  | (.opening, fs) => Keeps S olds cur frozen fs
  | (.writing file k, fs) => Keeps S olds cur frozen fs ∧ fs.names (tmpPath path) = some file ∧
      fs.data file = buf.take k
  | (.closed file, fs) => Keeps S olds cur frozen fs ∧ fs.names (tmpPath path) = some file ∧
      fs.data file = buf ∧ fs.synced file = true
  | (.removing, fs) => Keeps S olds cur frozen fs
  | (.forcing, fs) => ∃ file,
      Keeps S (outdated olds cur path) (written cur path buf) (insert file frozen) fs
  | (.returned false, fs) => Keeps S olds cur frozen fs
  | (.returned true, fs) => ∃ file,
      Keeps S (outdated olds cur path) (written cur path buf) (insert file frozen) fs ∧
      (.unforced ∉ es →
        Keeps S (Function.update olds (parentDir path) ∅) (written cur path buf)
          (insert file frozen) fs)

/-- **One system call.** -/
theorem WriteInv.step {es new : List FileEvent} {s s' : WritePc × Files}
    (h : WriteInv S olds cur frozen path buf es s) (hpath : path ∈ S) (htmp : tmpPath path ∉ S)
    (hs : WriteStep path buf s new s') : WriteInv S olds cur frozen path buf (es ++ new) s' := by
  cases hs with
  | refused => exact h
  | opened fs => exact Keeps.openTrunc h htmp
  | wrote fs file k n hk =>
    obtain ⟨hkeeps, hname, hdata⟩ := h
    have hfree : file ∉ frozen := fun hf => hkeeps.apart _ htmp file hf hname
    refine ⟨hkeeps.fill hfree _, hname, ?_⟩
    rw [FileSys.append, FileSys.fill, hdata]
    exact (Function.update_self ..).trans List.take_add.symm
  | failed fs file k => exact h.1
  | synced fs file =>
    obtain ⟨hkeeps, hname, hdata⟩ := h
    exact ⟨hkeeps.sync file, hname, hdata.trans List.take_length, Function.update_self ..⟩
  | renamed fs file hfile =>
    obtain ⟨hkeeps, -, hdata, hsynced⟩ := h
    have hren := hkeeps.rename htmp hpath hfile (parentDir_tmpPath path) hsynced
    rw [hdata] at hren
    exact ⟨file, hren⟩
  | renameFailed fs file => exact h.1
  | removed fs => exact Keeps.unlink h htmp
  | removeFailed fs => exact h
  | forced fs hdir =>
    obtain ⟨file, hkeeps⟩ := h
    have hsync := hkeeps.syncDir (parentDir path)
    rw [outdated, Function.update_idem] at hsync
    refine ⟨file, hsync.mono fun d => ?_, fun _ => hsync⟩
    rw [outdated, Function.update_apply, Function.update_apply]
    split_ifs
    · exact Set.empty_subset _
    · exact subset_rfl
  | unforced fs =>
    obtain ⟨file, hkeeps⟩ := h
    exact ⟨file, hkeeps, fun hnot => absurd (by simp) hnot⟩

/-- Wherever a call stands, the file is the old one or the new one. -/
theorem WriteInv.shows {es : List FileEvent} {pc : WritePc} {fs : Files}
    (h : WriteInv S olds cur frozen path buf es (pc, fs)) :
    ∃ olds' frozen' v, Keeps S olds' v frozen' fs ∧ (v = cur ∨ v = written cur path buf) ∧
      (.unforced ∉ es → pc ≠ .forcing → olds' = olds ∨
        olds' = Function.update olds (parentDir path) ∅) := by
  cases pc with
  | opening => exact ⟨olds, frozen, cur, h, Or.inl rfl, fun _ _ => Or.inl rfl⟩
  | writing file k => exact ⟨olds, frozen, cur, h.1, Or.inl rfl, fun _ _ => Or.inl rfl⟩
  | closed file => exact ⟨olds, frozen, cur, h.1, Or.inl rfl, fun _ _ => Or.inl rfl⟩
  | removing => exact ⟨olds, frozen, cur, h, Or.inl rfl, fun _ _ => Or.inl rfl⟩
  | forcing =>
    obtain ⟨file, hkeeps⟩ := h
    exact ⟨_, _, _, hkeeps, Or.inr rfl, fun _ hne => absurd rfl hne⟩
  | returned ok =>
    cases ok with
    | false => exact ⟨olds, frozen, cur, h, Or.inl rfl, fun _ _ => Or.inl rfl⟩
    | true =>
      obtain ⟨file, hkeeps, hforced⟩ := h
      by_cases hes : .unforced ∈ es
      · exact ⟨_, _, _, hkeeps, Or.inr rfl, fun hnot => absurd hes hnot⟩
      · exact ⟨_, _, _, hforced hes, Or.inr rfl, fun _ _ => Or.inr rfl⟩

/-- No directory has old views. -/
lemma update_empty (d : Option Bytes) :
    Function.update (fun _ => (∅ : Set (Bytes → Option Bytes))) d ∅ = fun _ => ∅ :=
  Function.update_eq_self d fun _ => (∅ : Set (Bytes → Option Bytes))

/-- The views that a power cut puts together from the old file and the new one. -/
lemma mix_written {pick : Option Bytes → Bytes → Option Bytes}
    (hpick : ∀ d, pick d ∈ insert (written cur path buf) (outdated (fun _ => ∅) cur path d)) :
    (fun n => pick (parentDir n) n) = cur ∨
      (fun n => pick (parentDir n) n) = written cur path buf := by
  have hother : ∀ d, d ≠ parentDir path → pick d = written cur path buf := by
    intro d hd
    have hmem := hpick d
    rw [outdated, Function.update_of_ne hd] at hmem
    exact (Set.mem_insert_iff.mp hmem).resolve_right id
  have hself := hpick (parentDir path)
  rw [outdated, Function.update_self] at hself
  rcases Set.mem_insert_iff.mp hself with heq | heq
  · refine Or.inr (funext fun n => ?_)
    rcases eq_or_ne (parentDir n) (parentDir path) with hn | hn
    · rw [hn, heq]
    · rw [hother _ hn]
  · refine Or.inl (funext fun n => ?_)
    have heq : pick (parentDir path) = cur := (Set.mem_insert_iff.mp heq).resolve_right id
    rcases eq_or_ne (parentDir n) (parentDir path) with hn | hn
    · rw [hn, heq]
    · rw [hother _ hn]
      exact Function.update_of_ne (fun h => hn (congrArg parentDir h)) _ _

/-- **After a power cut** the file is the old one or the new one, unless a directory was left in
memory. -/
theorem WriteInv.lost {es : List FileEvent} {pc : WritePc} {fs fs' : Files}
    (h : WriteInv S (fun _ => ∅) cur frozen path buf es (pc, fs)) (hes : .unforced ∉ es)
    (hlost : fs.Lost fs') :
    ∃ frozen' v, Keeps S (fun _ => ∅) v frozen' fs' ∧ (v = cur ∨ v = written cur path buf) := by
  by_cases hpc : pc = .forcing
  · subst hpc
    obtain ⟨file, hkeeps⟩ := h
    obtain ⟨pick, hpick, hnew⟩ := hkeeps.lost hlost
    exact ⟨_, _, hnew, mix_written hpick⟩
  · obtain ⟨olds', frozen', v, hkeeps, hv, holds⟩ := h.shows
    have hnone : olds' = fun _ => ∅ := by
      rcases holds hes hpc with rfl | rfl
      · rfl
      · exact update_empty _
    subst hnone
    obtain ⟨pick, hpick, hnew⟩ := hkeeps.lost hlost
    have hsame : (fun n => pick (parentDir n) n) = v :=
      funext fun n => congrFun ((Set.mem_insert_iff.mp (hpick _)).resolve_right id) n
    rw [hsame] at hnew
    exact ⟨_, _, hnew, hv⟩

end Write

end AgentChain
