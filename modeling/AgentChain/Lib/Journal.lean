import Mathlib.Data.Set.Insert
import Mathlib.Logic.Function.Basic
import Mathlib.Tactic

/-!
# Files and power cuts

A directory maps names to files, and a file has contents.  Every process sees a change at once,
but the change is on the disk only when it has been forced out.  A power cut brings each
directory back to one of the listings that it had since it was last forced out, where the changes
of one directory are kept in their order, and it leaves anything in a file whose contents were not
forced out.

A program keeps what the names of a set show (`Keeps`) when it never writes to a file that has had
such a name, and puts new contents there by renaming a file that was forced out before.  There is
one rule for each system call, and `Keeps.lost` says what is there after a power cut.
-/

namespace AgentChain
namespace Journal

/-- The entries of all directories. -/
abbrev Listing (N : Type*) := N → Option ℕ

/-- The files of a listing have numbers that are in use, a file stays in its directory, and has
one name. -/
structure Listing.Valid {N D : Type*} (dirOf : N → D) (next : ℕ) (home : ℕ → D) (m : Listing N) :
    Prop where
  lt : ∀ {n i}, m n = some i → i < next
  home_eq : ∀ {n i}, m n = some i → home i = dirOf n
  inj : ∀ {n n' i}, m n = some i → m n' = some i → n = n'

/-- A file system, as the processes see it and as a power cut may leave it. -/
structure FileSys (N D B : Type*) (dirOf : N → D) where
  names : Listing N
  /-- Earlier listings, newest first; a power cut brings back the entries of a directory. -/
  past : List (Listing N)
  data : ℕ → List B
  /-- Whether the contents of a file are on the disk. -/
  synced : ℕ → Bool
  /-- The number of the next new file. -/
  next : ℕ
  /-- The directory of a file. -/
  home : ℕ → D
  valid : ∀ m ∈ names :: past, m.Valid dirOf next home

section Listings

variable {N D : Type*} {dirOf : N → D} {next : ℕ} {home : ℕ → D} {m : Listing N}

/-- Listings that are taken from one listing for each directory. -/
lemma Listing.Valid.mix {pick : D → Listing N} (h : ∀ d, (pick d).Valid dirOf next home) :
    Listing.Valid dirOf next home fun n => pick (dirOf n) n where
  lt := fun hn => (h _).lt hn
  home_eq := fun hn => (h _).home_eq hn
  inj := fun {n n' i} hn hn' => by
    have hdir : dirOf n = dirOf n' := ((h _).home_eq hn).symm.trans ((h _).home_eq hn')
    rw [hdir] at hn
    exact (h _).inj hn hn'

/-- More files may be in use, as long as the old ones stay where they are. -/
lemma Listing.Valid.mono (h : m.Valid dirOf next home) {next' : ℕ} {home' : ℕ → D}
    (hle : next ≤ next') (hhome : ∀ i < next, home' i = home i) : m.Valid dirOf next' home' where
  lt := fun hn => (h.lt hn).trans_le hle
  home_eq := fun hn => (hhome _ (h.lt hn)).trans (h.home_eq hn)
  inj := h.inj

variable [DecidableEq N]

/-- A name is removed. -/
lemma Listing.Valid.erase (h : m.Valid dirOf next home) (n : N) :
    Listing.Valid dirOf next home (Function.update m n none) := by
  have hold : ∀ {k i}, Function.update m n none k = some i → m k = some i := by
    intro k i hk
    rcases eq_or_ne k n with rfl | hne
    · rw [Function.update_self] at hk
      cases hk
    · rwa [Function.update_of_ne hne] at hk
  exact ⟨fun hk => h.lt (hold hk), fun hk => h.home_eq (hold hk),
    fun hk hk' => h.inj (hold hk) (hold hk')⟩

/-- A file gets a name; no other name has the file. -/
lemma Listing.Valid.enter (h : m.Valid dirOf next home) {n : N} {i : ℕ} (hlt : i < next)
    (hhome : home i = dirOf n) (hfree : ∀ k, m k = some i → k = n) :
    Listing.Valid dirOf next home (Function.update m n (some i)) := by
  have hcases : ∀ {k j}, Function.update m n (some i) k = some j →
      (k = n ∧ j = i) ∨ (k ≠ n ∧ m k = some j) := by
    intro k j hk
    rcases eq_or_ne k n with rfl | hne
    · rw [Function.update_self] at hk
      exact Or.inl ⟨rfl, (Option.some.inj hk).symm⟩
    · rw [Function.update_of_ne hne] at hk
      exact Or.inr ⟨hne, hk⟩
  refine ⟨fun hk => ?_, fun hk => ?_, fun hk hk' => ?_⟩
  · rcases hcases hk with ⟨-, rfl⟩ | ⟨-, hk⟩
    · exact hlt
    · exact h.lt hk
  · rcases hcases hk with ⟨rfl, rfl⟩ | ⟨-, hk⟩
    · exact hhome
    · exact h.home_eq hk
  · rcases hcases hk with ⟨rfl, rfl⟩ | ⟨hne, hold⟩
    · rcases hcases hk' with ⟨rfl, -⟩ | ⟨hne, hold⟩
      · rfl
      · exact absurd (hfree _ hold) hne
    · rcases hcases hk' with ⟨-, rfl⟩ | ⟨-, hold'⟩
      · exact absurd (hfree _ hold) hne
      · exact h.inj hold hold'

/-- A file is renamed within its directory. -/
lemma Listing.Valid.rename (h : m.Valid dirOf next home) {a b : N} {i : ℕ} (ha : m a = some i)
    (hdir : dirOf a = dirOf b) :
    Listing.Valid dirOf next home (Function.update (Function.update m a none) b (some i)) := by
  refine (h.erase a).enter (h.lt ha) ((h.home_eq ha).trans hdir) fun k hk => ?_
  rcases eq_or_ne k a with rfl | hne
  · rw [Function.update_self] at hk
    cases hk
  · rw [Function.update_of_ne hne] at hk
    exact absurd (h.inj hk ha) hne

end Listings

namespace FileSys

variable {N D B : Type*} {dirOf : N → D}

/-- What a process reads at a name. -/
def read (fs : FileSys N D B dirOf) (n : N) : Option (List B) := (fs.names n).map fs.data

/-- No files at all. -/
def empty (d : D) : FileSys N D B dirOf :=
  ⟨fun _ => none, [], fun _ => [], fun _ => true, 0, fun _ => d, by
    rintro m hm
    rw [List.mem_singleton.mp hm]
    exact ⟨nofun, nofun, nofun⟩⟩

lemma valid_names (fs : FileSys N D B dirOf) : fs.names.Valid dirOf fs.next fs.home :=
  fs.valid _ List.mem_cons_self

/-- A change of the directories. -/
def relist (fs : FileSys N D B dirOf) (m : Listing N) (hm : m.Valid dirOf fs.next fs.home) :
    FileSys N D B dirOf :=
  { fs with
    names := m
    past := fs.names :: fs.past
    valid := fun _ hk => (List.mem_cons.mp hk).elim (fun heq => heq ▸ hm) (fs.valid _) }

/-- Contents that are not on the disk. -/
def fill (fs : FileSys N D B dirOf) (i : ℕ) (bytes : List B) : FileSys N D B dirOf :=
  { fs with
    data := Function.update fs.data i bytes
    synced := Function.update fs.synced i false }

/-- `write` behind what is there. -/
def append (fs : FileSys N D B dirOf) (i : ℕ) (bytes : List B) : FileSys N D B dirOf :=
  fs.fill i (fs.data i ++ bytes)

/-- `fsync` of a file -/
def sync (fs : FileSys N D B dirOf) (i : ℕ) : FileSys N D B dirOf :=
  { fs with synced := Function.update fs.synced i true }

/-- A number for a new file. -/
def reserve (fs : FileSys N D B dirOf) (d : D) : FileSys N D B dirOf :=
  { fs with
    next := fs.next + 1
    home := Function.update fs.home fs.next d
    valid := fun m hm => (fs.valid m hm).mono (Nat.le_succ _) fun _ hi =>
      Function.update_of_ne hi.ne _ _ }

variable [DecidableEq N]

lemma valid_create (fs : FileSys N D B dirOf) (n : N) :
    Listing.Valid dirOf (fs.reserve (dirOf n)).next (fs.reserve (dirOf n)).home
      (Function.update fs.names n (some fs.next)) :=
  (fs.reserve (dirOf n)).valid_names.enter (Nat.lt_succ_self _) (Function.update_self ..)
    fun _ hk => absurd (fs.valid_names.lt hk) (lt_irrefl _)

/-- `open` of a name that is not there, with `O_CREAT`. -/
def create (fs : FileSys N D B dirOf) (n : N) : FileSys N D B dirOf :=
  (fs.reserve (dirOf n)).relist (Function.update fs.names n (some fs.next)) (fs.valid_create n)

/-- `open` with `O_CREAT | O_TRUNC`: the file, and the file system behind the call. -/
def openTrunc (fs : FileSys N D B dirOf) (n : N) : ℕ × FileSys N D B dirOf :=
  match fs.names n with
  | some i => (i, fs.fill i [])
  | none => (fs.next, (fs.create n).fill fs.next [])

/-- `unlink` -/
def unlink (fs : FileSys N D B dirOf) (n : N) : FileSys N D B dirOf :=
  fs.relist (Function.update fs.names n none) (fs.valid_names.erase n)

/-- `rename` of a name `a` with the file `i` to a name in the same directory. -/
def rename (fs : FileSys N D B dirOf) (a b : N) (i : ℕ) (ha : fs.names a = some i)
    (hdir : dirOf a = dirOf b) : FileSys N D B dirOf :=
  fs.relist (Function.update (Function.update fs.names a none) b (some i))
    (fs.valid_names.rename ha hdir)

omit [DecidableEq N]

/-- The listing `m` with the present entries of a directory. -/
def renew [DecidableEq D] (fs : FileSys N D B dirOf) (d : D) (m : Listing N) : Listing N :=
  fun n => (if dirOf n = d then fs.names else m) n

lemma valid_renew [DecidableEq D] (fs : FileSys N D B dirOf) (d : D) {m : Listing N}
    (hm : m ∈ fs.past) : (fs.renew d m).Valid dirOf fs.next fs.home := by
  have hpick : ∀ e, (if e = d then fs.names else m).Valid dirOf fs.next fs.home := by
    intro e
    split_ifs
    · exact fs.valid_names
    · exact fs.valid m (List.mem_cons_of_mem _ hm)
  exact Listing.Valid.mix hpick

/-- `fsync` of a directory: a power cut no longer brings back its earlier entries. -/
def syncDir [DecidableEq D] (fs : FileSys N D B dirOf) (d : D) : FileSys N D B dirOf :=
  { fs with
    past := fs.past.map (fs.renew d)
    valid := fun m hm => by
      rcases List.mem_cons.mp hm with rfl | hm
      · exact fs.valid_names
      · obtain ⟨k, hk, rfl⟩ := List.mem_map.mp hm
        exact fs.valid_renew d hk }

/-- What a power cut leaves. -/
structure Lost (fs fs' : FileSys N D B dirOf) : Prop where
  names_eq : ∃ pick : D → Listing N, (∀ d, pick d ∈ fs.names :: fs.past) ∧
    fs'.names = fun n => pick (dirOf n) n
  past_eq : fs'.past = []
  data_eq : ∀ i, fs.synced i = true → fs'.data i = fs.data i
  synced_eq : ∀ i, fs'.synced i = true
  next_eq : fs'.next = fs.next

/-- What a listing shows. -/
def shown (fs : FileSys N D B dirOf) (m : Listing N) (n : N) : Option (List B) :=
  (m n).map fs.data

end FileSys

/-! ### What the names of a set show -/

section Keeps

variable {N D B : Type*} {dirOf : N → D} {S : Set N} {fs fs' : FileSys N D B dirOf}
  {olds : D → Set (N → Option (List B))} {cur : N → Option (List B)} {frozen : Set ℕ}

/-- The names of `S` show `cur`, and a power cut brings back what one of `olds` shows, for each
directory for itself; the files in `frozen`, which have had a name of `S`, are on the disk, and no
other name leads to them. -/
structure Keeps (S : Set N) (olds : D → Set (N → Option (List B))) (cur : N → Option (List B))
    (frozen : Set ℕ) (fs : FileSys N D B dirOf) : Prop where
  shows : ∀ n ∈ S, fs.read n = cur n
  recalls : ∀ m ∈ fs.past, ∀ d, ∃ v ∈ insert cur (olds d), ∀ n ∈ S, dirOf n = d →
    fs.shown m n = v n
  froze : ∀ m ∈ fs.names :: fs.past, ∀ n ∈ S, ∀ i, m n = some i → i ∈ frozen
  lt : ∀ i ∈ frozen, i < fs.next
  synced : ∀ i ∈ frozen, fs.synced i = true
  apart : ∀ t ∉ S, ∀ i ∈ frozen, fs.names t ≠ some i

namespace Keeps

/-- Nothing is there. -/
lemma empty (d : D) :
    Keeps S (fun _ => ∅) (fun _ => none) ∅ (FileSys.empty d : FileSys N D B dirOf) where
  shows := fun _ _ => rfl
  recalls := fun _ hm => absurd hm List.not_mem_nil
  froze := fun m hm n _ i hi => by
    rw [List.mem_singleton.mp hm] at hi
    cases hi
  lt := fun _ hi => hi.elim
  synced := fun _ hi => hi.elim
  apart := fun _ _ _ hi => hi.elim

/-- More views may come back. -/
lemma mono (h : Keeps S olds cur frozen fs) {olds' : D → Set (N → Option (List B))}
    (hle : ∀ d, olds d ⊆ olds' d) : Keeps S olds' cur frozen fs :=
  { h with
    recalls := fun m hm d => by
      obtain ⟨v, hv, hshows⟩ := h.recalls m hm d
      exact ⟨v, Set.insert_subset_insert (hle d) hv, hshows⟩ }

/-- Only files that are not frozen change. -/
lemma touch (h : Keeps S olds cur frozen fs) (hnames : fs'.names = fs.names)
    (hpast : fs'.past = fs.past) (hnext : fs'.next = fs.next)
    (hdata : ∀ i ∈ frozen, fs'.data i = fs.data i)
    (hsynced : ∀ i ∈ frozen, fs'.synced i = true) : Keeps S olds cur frozen fs' := by
  have hshown : ∀ m ∈ fs.names :: fs.past, ∀ n ∈ S, fs'.shown m n = fs.shown m n := by
    intro m hm n hn
    rw [FileSys.shown, FileSys.shown]
    cases hi : m n with
    | none => rfl
    | some i => exact congrArg some (hdata i (h.froze m hm n hn i hi))
  refine ⟨fun n hn => ?_, fun m hm d => ?_, ?_, ?_, hsynced, ?_⟩
  · rw [← h.shows n hn, FileSys.read, hnames]
    exact hshown _ List.mem_cons_self n hn
  · rw [hpast] at hm
    obtain ⟨v, hv, hshows⟩ := h.recalls m hm d
    exact ⟨v, hv, fun n hn hd =>
      (hshown m (List.mem_cons_of_mem _ hm) n hn).trans (hshows n hn hd)⟩
  · rw [hnames, hpast]
    exact h.froze
  · rw [hnext]
    exact h.lt
  · rw [hnames]
    exact h.apart

/-- New contents of a file that is not frozen. -/
lemma fill (h : Keeps S olds cur frozen fs) {i : ℕ} (hi : i ∉ frozen) (bytes : List B) :
    Keeps S olds cur frozen (fs.fill i bytes) := by
  have hne : ∀ j ∈ frozen, j ≠ i := fun j hj heq => hi (heq ▸ hj)
  exact h.touch rfl rfl rfl (fun j hj => Function.update_of_ne (hne j hj) _ _)
    fun j hj => (Function.update_of_ne (hne j hj) _ _).trans (h.synced j hj)

lemma sync (h : Keeps S olds cur frozen fs) (i : ℕ) : Keeps S olds cur frozen (fs.sync i) := by
  refine h.touch rfl rfl rfl (fun _ _ => rfl) fun j hj => ?_
  rcases eq_or_ne j i with rfl | hne
  · exact Function.update_self ..
  · exact (Function.update_of_ne hne _ _).trans (h.synced j hj)

/-- The directories change at names outside of `S` only, and no name leads to a frozen file
there. -/
lemma relist (h : Keeps S olds cur frozen fs) {m : Listing N}
    (hm : m.Valid dirOf fs.next fs.home) (hsame : ∀ n ∈ S, m n = fs.names n)
    (hapart : ∀ t ∉ S, ∀ i ∈ frozen, m t ≠ some i) : Keeps S olds cur frozen (fs.relist m hm) where
  shows := fun n hn => by
    rw [← h.shows n hn]
    exact congrArg (Option.map fs.data) (hsame n hn)
  recalls := fun k hk d => by
    rcases List.mem_cons.mp hk with rfl | hk
    · exact ⟨cur, Set.mem_insert _ _, fun n hn _ => h.shows n hn⟩
    · exact h.recalls k hk d
  froze := fun k hk n hn i hi => by
    rcases List.mem_cons.mp hk with rfl | hk
    · exact h.froze _ List.mem_cons_self n hn i ((hsame n hn).symm.trans hi)
    · exact h.froze k hk n hn i hi
  lt := h.lt
  synced := h.synced
  apart := hapart

variable [DecidableEq N]

/-- A name outside of `S` is removed. -/
lemma unlink (h : Keeps S olds cur frozen fs) {t : N} (ht : t ∉ S) :
    Keeps S olds cur frozen (fs.unlink t) := by
  refine h.relist _ (fun n hn => Function.update_of_ne (ne_of_mem_of_not_mem hn ht) _ _)
    fun k hk i hi => ?_
  rcases eq_or_ne k t with rfl | hne
  · rw [Function.update_self]
    exact nofun
  · rw [Function.update_of_ne hne]
    exact h.apart k hk i hi

omit [DecidableEq N] in
/-- A number is reserved. -/
lemma reserve (h : Keeps S olds cur frozen fs) (d : D) : Keeps S olds cur frozen (fs.reserve d) :=
  ⟨h.shows, h.recalls, h.froze, fun i hi => (h.lt i hi).trans (Nat.lt_succ_self _), h.synced,
    h.apart⟩

/-- A file is created under a name outside of `S`. -/
lemma create (h : Keeps S olds cur frozen fs) {t : N} (ht : t ∉ S) :
    Keeps S olds cur frozen (fs.create t) := by
  refine (h.reserve (dirOf t)).relist _
    (fun n hn => Function.update_of_ne (ne_of_mem_of_not_mem hn ht) _ _) fun k hk i hi => ?_
  rcases eq_or_ne k t with rfl | hne
  · rw [Function.update_self]
    intro heq
    exact (h.lt i hi).ne (Option.some.inj heq).symm
  · rw [Function.update_of_ne hne]
    exact h.apart k hk i hi

/-- **A temporary file is opened**: it is empty, and not frozen. -/
theorem openTrunc (h : Keeps S olds cur frozen fs) {t : N} (ht : t ∉ S) :
    Keeps S olds cur frozen (fs.openTrunc t).2 ∧
      (fs.openTrunc t).2.names t = some (fs.openTrunc t).1 ∧
      (fs.openTrunc t).2.data (fs.openTrunc t).1 = [] := by
  rw [FileSys.openTrunc]
  cases hi : fs.names t with
  | some i =>
    exact ⟨h.fill (fun hf => h.apart t ht i hf hi) _, hi, Function.update_self ..⟩
  | none =>
    exact ⟨(h.create ht).fill (fun hf => (h.lt _ hf).false) _, Function.update_self ..,
      Function.update_self ..⟩

/-- **A file that was forced out is renamed** to a name of `S`, which then shows its contents.  A
power cut may bring back what the directory showed before. -/
theorem rename [DecidableEq D] (h : Keeps S olds cur frozen fs) {t n : N} {i : ℕ} (ht : t ∉ S)
    (hn : n ∈ S) (hi : fs.names t = some i) (hdir : dirOf t = dirOf n)
    (hsynced : fs.synced i = true) :
    Keeps S (Function.update olds (dirOf n) (insert cur (olds (dirOf n))))
      (Function.update cur n (some (fs.data i))) (insert i frozen) (fs.rename t n i hi hdir) := by
  have htn : t ≠ n := (ne_of_mem_of_not_mem hn ht).symm
  have hother : ∀ k ∈ S, k ≠ n → (fs.rename t n i hi hdir).names k = fs.names k := by
    intro k hk hne
    have hkt : k ≠ t := ne_of_mem_of_not_mem hk ht
    exact (Function.update_of_ne hne _ _).trans (Function.update_of_ne hkt _ _)
  have hself : (fs.rename t n i hi hdir).names n = some i := Function.update_self ..
  refine ⟨fun k hk => ?_, fun m hm d => ?_, fun m hm k hk j hj => ?_, ?_, ?_, ?_⟩
  · rcases eq_or_ne k n with rfl | hne
    · rw [FileSys.read, hself, Function.update_self]
      rfl
    · rw [FileSys.read, hother k hk hne, Function.update_of_ne hne]
      exact h.shows k hk
  · -- an earlier listing: it shows `cur`, or what an earlier one of its directory shows
    obtain ⟨v, hv, hshows⟩ : ∃ v ∈ insert cur (olds d), ∀ k ∈ S, dirOf k = d →
        fs.shown m k = v k := by
      rcases List.mem_cons.mp hm with rfl | hm
      · exact ⟨cur, Set.mem_insert _ _, fun k hk _ => h.shows k hk⟩
      · exact h.recalls m hm d
    rcases eq_or_ne d (dirOf n) with rfl | hd
    · rw [Function.update_self]
      exact ⟨v, Set.mem_insert_of_mem _ hv, hshows⟩
    · rw [Function.update_of_ne hd]
      rcases Set.mem_insert_iff.mp hv with rfl | hv
      · refine ⟨_, Set.mem_insert _ _, fun k hk hkd => ?_⟩
        have hne : k ≠ n := fun heq => hd (heq ▸ hkd).symm
        rw [Function.update_of_ne hne]
        exact hshows k hk hkd
      · exact ⟨v, Set.mem_insert_of_mem _ hv, hshows⟩
  · rcases List.mem_cons.mp hm with rfl | hm
    · rcases eq_or_ne k n with rfl | hne
      · rw [hself] at hj
        exact Or.inl (Option.some.inj hj).symm
      · exact Or.inr (h.froze _ List.mem_cons_self k hk j ((hother k hk hne).symm.trans hj))
    · exact Or.inr (h.froze m hm k hk j hj)
  · rintro j (rfl | hj)
    · exact fs.valid_names.lt hi
    · exact h.lt j hj
  · rintro j (rfl | hj)
    · exact hsynced
    · exact h.synced j hj
  · intro k hk j hj heq
    have hkn : k ≠ n := (ne_of_mem_of_not_mem hn hk).symm
    have hold : Function.update fs.names t none k = some j :=
      (Function.update_of_ne hkn _ _).symm.trans heq
    rcases eq_or_ne k t with rfl | hne
    · rw [Function.update_self] at hold
      cases hold
    · rw [Function.update_of_ne hne] at hold
      rcases hj with rfl | hj
      · exact hne (fs.valid_names.inj hold hi)
      · exact h.apart k hk j hj hold

omit [DecidableEq N] in
/-- **A directory is forced out.** -/
theorem syncDir [DecidableEq D] (h : Keeps S olds cur frozen fs) (d : D) :
    Keeps S (Function.update olds d ∅) cur frozen (fs.syncDir d) where
  shows := h.shows
  recalls := fun m hm e => by
    obtain ⟨k, hk, rfl⟩ := List.mem_map.mp hm
    rcases eq_or_ne e d with rfl | hne
    · refine ⟨cur, Set.mem_insert _ _, fun n hn hd => ?_⟩
      rw [← h.shows n hn, FileSys.shown, FileSys.renew, if_pos hd]
      rfl
    · rw [Function.update_of_ne hne]
      obtain ⟨v, hv, hshows⟩ := h.recalls k hk e
      refine ⟨v, hv, fun n hn hd => ?_⟩
      rw [← hshows n hn hd, FileSys.shown, FileSys.renew, if_neg (hd ▸ hne)]
      rfl
  froze := fun m hm n hn i hi => by
    rcases List.mem_cons.mp hm with rfl | hm
    · exact h.froze _ List.mem_cons_self n hn i hi
    · obtain ⟨k, hk, rfl⟩ := List.mem_map.mp hm
      rw [FileSys.renew] at hi
      split_ifs at hi
      · exact h.froze _ List.mem_cons_self n hn i hi
      · exact h.froze k (List.mem_cons_of_mem _ hk) n hn i hi
  lt := h.lt
  synced := h.synced
  apart := h.apart

omit [DecidableEq N] in
/-- **After a power cut** every directory shows what it shows now, or one of its old views, and
all of it is on the disk. -/
theorem lost (h : Keeps S olds cur frozen fs) (hlost : fs.Lost fs') :
    ∃ pick : D → N → Option (List B), (∀ d, pick d ∈ insert cur (olds d)) ∧
      Keeps S (fun _ => ∅) (fun n => pick (dirOf n) n) {i | ∃ n ∈ S, fs'.names n = some i} fs' := by
  obtain ⟨take, htake, hnames⟩ := hlost.names_eq
  -- what the listing of a directory shows
  have hview : ∀ d, ∃ v ∈ insert cur (olds d), ∀ n ∈ S, dirOf n = d →
      fs.shown (take d) n = v n := by
    intro d
    rcases List.mem_cons.mp (htake d) with heq | hmem
    · rw [heq]
      exact ⟨cur, Set.mem_insert _ _, fun n hn _ => h.shows n hn⟩
    · exact h.recalls _ hmem d
  choose pick hpick hshows using hview
  refine ⟨pick, hpick, fun n hn => ?_, ?_, ?_, ?_, fun i _ => hlost.synced_eq i, ?_⟩
  · rw [← hshows (dirOf n) n hn rfl, FileSys.read, FileSys.shown, hnames]
    dsimp only
    cases hi : take (dirOf n) n with
    | none => rfl
    | some i =>
      have hfrozen := h.froze _ (htake (dirOf n)) n hn i hi
      exact congrArg some (hlost.data_eq i (h.synced i hfrozen))
  · rw [hlost.past_eq]
    exact fun _ hm => absurd hm List.not_mem_nil
  · rw [hlost.past_eq]
    intro m hm n hn i hi
    rw [List.mem_singleton.mp hm] at hi
    exact ⟨n, hn, hi⟩
  · rintro i ⟨n, -, hi⟩
    exact fs'.valid_names.lt hi
  · rintro t ht i ⟨n, hn, hi⟩ heq
    exact ht (fs'.valid_names.inj hi heq ▸ hn)

end Keeps

end Keeps

end Journal
end AgentChain
