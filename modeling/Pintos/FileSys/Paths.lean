import Pintos.FileSys.DirCalls
import Pintos.Lib.Tokens

/-!
# Walking a path

`FS.walk` is what `parse_dir` computes from the components of a path: the
directory it returns and the references it leaves behind on the way
(`parseDir_spec`). It differs from the meaning of the path in three points: a
`..` before the last component stays in the directory and leaves the parent
open, a regular file before the last component is skipped, and where a component
is missing the directory reached so far stays open.
-/

namespace Pintos.FileSys

open Lib List

/-! ## Components -/

def components (name : CString) : List CString := tokens SLASH name

section
variable {s : CString}

theorem strtokR_spec (s : CString) :
    ∃ rest, strtokR s = ((components s).head?, rest) ∧ components rest = (components s).tail := by
  have hdrop : components (s.dropWhile (· = SLASH)) = components s := tokensBy_dropWhile
  unfold strtokR
  rw [← hdrop]
  cases hs : s.dropWhile (· = SLASH) with
  | nil => exact ⟨[], rfl, rfl⟩
  | cons c s' =>
    have hc : c ≠ SLASH := by
      have hhead := head?_dropWhile_not (p := (· = SLASH)) s
      rw [hs] at hhead
      simpa using hhead
    have hcons : components (c :: s') = _ := tokens_cons hc
    refine ⟨((c :: s').dropWhile (· ≠ SLASH)).drop 1, ?_, ?_⟩
    · rw [hcons]
      rfl
    · rw [hcons]
      rfl

theorem parseFileLoop_eq (cs : List CString) (fuel : Nat) (token saveptr : CString)
    (hrest : components saveptr = cs.tail) (hfuel : cs.length ≤ fuel) :
    parseFileLoop fuel token cs.head? saveptr = cs.getLastD token := by
  induction cs generalizing fuel token saveptr with
  | nil => cases fuel <;> rfl
  | cons c cs ih =>
    obtain ⟨fuel, rfl⟩ : ∃ n, fuel = n + 1 := ⟨fuel - 1, by simp only [length_cons] at hfuel; omega⟩
    obtain ⟨rest, hstrtok, htail⟩ := strtokR_spec saveptr
    rw [hrest, tail_cons] at hstrtok htail
    rw [head?_cons, parseFileLoop, hstrtok]
    exact (ih fuel c rest htail (Nat.le_of_succ_le_succ hfuel)).trans (getLastD_cons ..).symm

/-- **`parse_file`** returns the last component. -/
theorem parseFile_eq (name : CString) : parseFile name = (components name).getLastD [] := by
  obtain ⟨rest, hstrtok, htail⟩ := strtokR_spec name
  unfold parseFile
  rw [hstrtok]
  exact parseFileLoop_eq _ _ _ _ htail (Nat.le_succ_of_le length_tokensBy_le)

/-! ## The walk -/

/-- The loop of `parse_dir` from directory `dir` on: what it returns, and the
inodes that it opens and does not close. -/
def FS.walk (fs : FS) : Sector → List CString → Option Sector × List Sector
  | dir, dirName :: nextDir :: rest =>
    if dirName = DOT then fs.walk dir (nextDir :: rest)
    else if dirName = DOTDOT then
      ((fs.walk dir (nextDir :: rest)).1,
        (fs.node dir).parent :: (fs.walk dir (nextDir :: rest)).2)
    else
      match (fs.dirTable dir).find dirName with
      | none => (none, [dir])
      | some inode =>
        if (fs.node inode).isDir = 1 then fs.walk inode (nextDir :: rest)
        else fs.walk dir (nextDir :: rest)
  | dir, _ => (some dir, [])

def baseDir (cwd : Option Sector) (name : CString) : Sector :=
  if name.head? = some SLASH then ROOT_DIR_SECTOR else cwd.getD ROOT_DIR_SECTOR

def CwdOk (fs : FS) (cwd : Option Sector) : Prop :=
  ∀ dir ∈ cwd, fs.isDirectory dir ∧ 0 < fs.openCount dir

def walkRefs (w : Option Sector × List Sector) (j : Sector) : Int := opened w.1 j + w.2.count j

variable {d0 : Disk} {fs fs1 : FS} {X : Set Sector} {dir inode : Sector} {δ : Sector → Int}

theorem EntryTable.Same.find_eq {t t' : EntryTable} (h : t.Same t') (name : CString) :
    t'.find name = t.find name := by
  have hslot : t'.slotOf name = t.slotOf name :=
    h.first_eq fun e e' he => DirEntry.isEntryOf_congr name he
  unfold EntryTable.find
  rw [hslot]
  cases hk : t.slotOf name with
  | none => rfl
  | some k =>
    exact congrArg some (DirEntry.inodeSector_congr (h.2 k (EntryTable.first_some hk).1))

section
variable (h : Idle d0 fs ∅)
include h

theorem Idle.parent_live (hd : fs.isDirectory dir) :
    (fs.node dir).parent ∈ fs.live := by
  by_cases hroot : dir = ROOT_DIR_SECTOR
  · rw [hroot, h.ns.rootParent]
    exact h.mounted.zero_live
  · have hloose : dir ∉ ∅ ∪ fs.loose := by
      rintro (he | he | he)
      · exact he
      · exact h.mounted.directory_ne hd he
      · exact h.directory_present hd he
    obtain ⟨d, k, n, hk⟩ := h.ns.wf.named dir hd.1 hloose hroot
    have hp : (fs.node dir).parent = d := h.ns.wf.parent_eq hk hd
    rw [hp]
    exact h.ns.wf.dir_live (h.ns.wf.slot_held hk).1

theorem dirGetParentInode_spec (hd : fs.isDirectory dir) (hopen : 0 < fs.openCount dir) :
    ∃ fs', dirGetParentInode inodeOps fs dir = some ((fs.node dir).parent, fs') ∧
      Shift d0 fs fs' (ref (fs.node dir).parent) := by
  obtain ⟨ino, hino⟩ := h.mounted.vol.open_iff.mpr hopen
  have hparent : inodeOps.inodeParent fs dir = some (fs.node dir).parent := by
    show (fs.inode? dir).map (·.parent) = _
    rw [hino, FS.node_of_open hino]
    rfl
  refine ⟨inodeOpen fs (fs.node dir).parent, ?_, h.open_shift (h.parent_live hd)⟩
  unfold dirGetParentInode
  rw [hparent]
  rfl

theorem enterInode_spec (hd : fs.isDirectory dir) (hopen : 0 < fs.openCount dir)
    (hlive : inode ∈ fs.live) (hloose : inode ∉ fs.loose) (hino : 0 < fs.openCount inode)
    {next : Sector} (hnext : next = if (fs.node inode).isDir = 1 then inode else dir) :
    ∃ fs', enterInode fs dir inode = some (next, fs') ∧ fs.isDirectory next ∧
      Shift d0 fs fs' (fun j => ref next j - ref inode j - ref dir j) := by
  obtain ⟨ino, hfind⟩ := h.mounted.vol.open_iff.mpr hino
  have hnode := FS.node_of_open hfind
  obtain ⟨isDir, hisDir, -, hdir⟩ := inodeIsDir_of_kind (h.mounted.vol.coreOk_open hfind)
  rw [hnode] at hnext
  unfold enterInode
  simp only [hfind, hisDir, some_bind]
  cases isDir with
  | true =>
    rw [if_pos (hdir.mp rfl)] at hnext
    obtain ⟨fs', hclose, hsh⟩ := h.dirClose_shift hd hopen
    refine ⟨fs', ?_, ?_, hsh.mounted, hsh.quiet, fun j => ?_⟩
    · rw [if_pos rfl, hclose, hnext]
      rfl
    · rw [hnext]
      exact ⟨hlive, by rw [hnode]; exact hdir.mp rfl⟩
    · rw [hsh.count, hnext]
      omega
  | false =>
    rw [if_neg fun hk => by cases hdir.mpr hk] at hnext
    have h0 : inode ≠ FREE_MAP_SECTOR := fun he => hloose (.inl he)
    obtain ⟨fs', hclose, hsh⟩ := h.mounted.close_shift hino h0 fun hr => hloose (.inr hr)
    refine ⟨fs', ?_, by rw [hnext]; exact hd, hsh.mounted, hsh.quiet, fun j => ?_⟩
    · rw [if_neg Bool.false_ne_true, hclose, hnext]
      rfl
    · rw [hsh.count, hnext]
      omega

/-- **The loop of `parse_dir`** walks. Its states differ from the first one, `fs`, in open counts
alone, so what it finds is what `fs` holds; `dir` is the reference it has in hand. -/
theorem parseDirLoop_spec (cs : List CString) (fuel : Nat) (fs1 : FS) (δ : Sector → Int)
    (hsh : Shift d0 fs fs1 δ) (dir : Sector) (hd : fs.isDirectory dir)
    (hopen : 0 < fs1.openCount dir) (dirName saveptr : CString)
    (hrest : components saveptr = cs.tail) (hfuel : cs.length ≤ fuel) :
    ∃ fs', parseDirLoop fuel fs1 dir dirName cs.head? saveptr =
        some ((fs.walk dir (dirName :: cs)).1, fs') ∧
      Shift d0 fs1 fs' (fun j => walkRefs (fs.walk dir (dirName :: cs)) j - ref dir j) := by
  induction cs generalizing fuel fs1 δ dir dirName saveptr with
  | nil =>
    refine ⟨fs1, by cases fuel <;> rfl, hsh.mounted, Quiet.refl _, fun j => ?_⟩
    simp [FS.walk, walkRefs, opened]
  | cons nextDir cs ih =>
    obtain ⟨fuel, rfl⟩ : ∃ n, fuel = n + 1 :=
      ⟨fuel - 1, by simp only [length_cons] at hfuel; omega⟩
    have hfuel' : cs.length ≤ fuel := Nat.le_of_succ_le_succ hfuel
    obtain ⟨rest, hstrtok, htail⟩ := strtokR_spec saveptr
    rw [hrest, tail_cons] at hstrtok htail
    have hidle1 : Idle d0 fs1 ∅ := h.shift hsh
    have hd1 : fs1.isDirectory dir := hsh.isDirectory.mpr hd
    rw [head?_cons, parseDirLoop, hstrtok, FS.walk]
    by_cases hdot : dirName = DOT
    · simp only [if_pos hdot]
      exact ih fuel fs1 δ hsh dir hd hopen nextDir rest htail hfuel'
    · simp only [if_neg hdot]
      by_cases hdotdot : dirName = DOTDOT
      · simp only [if_pos hdotdot]
        obtain ⟨fs2, hparent, hsh2⟩ := dirGetParentInode_spec hidle1 hd1 hopen
        rw [hsh.quiet.node dir hd.1] at hparent hsh2
        have hopen2 : 0 < fs2.openCount dir := by
          rw [hsh2.count]
          unfold ref
          split <;> omega
        obtain ⟨fs3, hloop, hsh3⟩ := ih fuel fs2 _ (hsh.trans hsh2 fun _ => rfl) dir hd hopen2
          nextDir rest htail hfuel'
        refine ⟨fs3, ?_, hsh2.trans hsh3 fun j => ?_⟩
        · simp only [hparent, some_bind]
          exact hloop
        · -- the reference to the parent stays
          simp only [walkRefs, count_cons, ref]
          by_cases hj : j = (fs.node dir).parent
          · subst hj
            simp
            omega
          · have hj' : ((fs.node dir).parent == j) = false := by simpa using Ne.symm hj
            simp [hj, hj']
      · simp only [if_neg hdotdot]
        obtain ⟨fs2, hlook, hsh2⟩ := dirLookup_spec hidle1 hd1 hopen dirName
        rw [(hsh.dirTable h.mounted hd).find_eq] at hlook hsh2
        simp only [hlook, some_bind]
        cases hfind : (fs.dirTable dir).find dirName with
        | none =>
          rw [hfind] at hsh2
          refine ⟨fs2, rfl, hsh2.mounted, hsh2.quiet, fun j => ?_⟩
          rw [hsh2.count]
          by_cases hj : j = dir
          · simp [walkRefs, opened, ref, hj]
          · simp [walkRefs, opened, ref, hj, Ne.symm hj]
        | some inode =>
          rw [hfind] at hsh2
          obtain ⟨hlive, hloose, -⟩ := h.find_live hd hfind
          have hsh02 := hsh.trans hsh2 (η := fun j => δ j + ref inode j) fun _ => rfl
          have hidle2 : Idle d0 fs2 ∅ := h.shift hsh02
          have hopen2 : 0 < fs2.openCount dir := by
            rw [hsh2.count]
            unfold opened ref
            split <;> omega
          have hino2 : 0 < fs2.openCount inode := by
            have := hsh.mounted.vol.openCount_nonneg inode
            rw [hsh2.count]
            simp only [opened, ref, if_true]
            omega
          obtain ⟨next, hnext⟩ : ∃ n, n = if (fs.node inode).isDir = 1 then inode else dir :=
            ⟨_, rfl⟩
          have hloose2 : inode ∉ fs2.loose := by
            rintro (he | he)
            · exact hloose (.inr (.inl he))
            · exact hloose (.inr (.inr ((hsh02.quiet.removed inode).mp he)))
          have hnext2 : next = if (fs2.node inode).isDir = 1 then inode else dir := by
            rw [hsh02.quiet.node inode hlive]
            exact hnext
          obtain ⟨fs3, henter, hdn, hsh3⟩ := enterInode_spec hidle2 (hsh02.isDirectory.mpr hd)
            hopen2 (hsh02.quiet.live ▸ hlive) hloose2 hino2 hnext2
          have hopen3 : 0 < fs3.openCount next := by
            have hcount : fs3.openCount next = fs1.openCount next + 1 - ref dir next := by
              rw [hsh3.count, hsh2.count]
              simp only [opened, ref, if_true]
              omega
            have := hsh.mounted.vol.openCount_nonneg next
            by_cases hnd : next = dir
            · rw [hcount, ref, if_pos hnd, hnd]
              omega
            · rw [hcount, ref, if_neg hnd]
              omega
          obtain ⟨fs4, hloop, hsh4⟩ := ih fuel fs3 _ (hsh02.trans hsh3 fun _ => rfl) next
            (hsh02.isDirectory.mp hdn) hopen3 nextDir rest htail hfuel'
          have hwalk : (if (fs.node inode).isDir = 1 then fs.walk inode (nextDir :: cs)
              else fs.walk dir (nextDir :: cs)) = fs.walk next (nextDir :: cs) := by
            rw [hnext]
            split <;> rfl
          simp only [hwalk]
          refine ⟨fs4, ?_, (hsh2.trans hsh3 fun _ => rfl).trans hsh4 fun j => ?_⟩
          · simp only [henter]
            exact hloop
          · simp only [opened]
            omega

theorem Idle.walk_isDirectory (cs : List CString) (hd : fs.isDirectory dir) {d : Sector}
    (hw : (fs.walk dir cs).1 = some d) : fs.isDirectory d := by
  induction dir, cs using FS.walk.induct fs with
  | case1 dir nextDir rest ih =>
    rw [FS.walk, if_pos rfl] at hw
    exact ih hd hw
  | case2 dir nextDir rest hne ih =>
    rw [FS.walk, if_neg hne, if_pos rfl] at hw
    exact ih hd hw
  | case3 dir dirName nextDir rest hdot hdotdot hfind =>
    rw [FS.walk, if_neg hdot, if_neg hdotdot, hfind] at hw
    cases hw
  | case4 dir dirName nextDir rest hdot hdotdot inode hfind hkind ih =>
    simp only [FS.walk, if_neg hdot, if_neg hdotdot, hfind, if_pos hkind] at hw
    exact ih ⟨(h.find_live hd hfind).1, hkind⟩ hw
  | case5 dir dirName nextDir rest hdot hdotdot inode hfind hkind ih =>
    simp only [FS.walk, if_neg hdot, if_neg hdotdot, hfind, if_neg hkind] at hw
    exact ih hd hw
  | case6 dir cs hnot =>
    rw [FS.walk] at hw
    · cases hw
      exact hd
    · exact hnot

theorem Idle.root_isDirectory : fs.isDirectory ROOT_DIR_SECTOR :=
  h.ns.wf.root_dir

end

variable {cwd : Option Sector}

variable (h : Idle d0 fs ∅) (hcwd : CwdOk fs cwd)
include h hcwd

theorem Idle.baseDir_isDirectory (name : CString) :
    fs.isDirectory (baseDir cwd name) := by
  unfold baseDir
  split
  · exact h.root_isDirectory
  · cases cwd with
    | none => exact h.root_isDirectory
    | some d => exact (hcwd d rfl).1

theorem openBase_spec (name : CString) :
    ∃ fs', openBase fs cwd name = some (baseDir cwd name, fs') ∧
      Shift d0 fs fs' (ref (baseDir cwd name)) := by
  have hroot := h.open_shift h.root_isDirectory.1
  unfold openBase baseDir
  by_cases hslash : name.head? = some SLASH
  · rw [if_pos hslash, if_pos hslash]
    exact ⟨_, rfl, hroot⟩
  · rw [if_neg hslash, if_neg hslash]
    cases cwd with
    | none => exact ⟨_, rfl, hroot⟩
    | some d =>
      obtain ⟨hd, hopen⟩ := hcwd d rfl
      obtain ⟨ino, hino⟩ := h.mounted.vol.open_iff.mpr hopen
      have hreopen : dirReopen inodeOps fs d = some (inodeOpen fs d) := inodeReopen_eq hino
      refine ⟨inodeOpen fs d, ?_, h.open_shift hd.1⟩
      simp only [hreopen, some_bind, Option.getD_some]

def FS.parse (fs : FS) (cwd : Option Sector) (name : CString) : Option Sector × List Sector :=
  fs.walk (baseDir cwd name) (components name)

/-- **`parse_dir`** walks from the base directory. -/
theorem parseDir_spec (name : CString) :
    ∃ fs', parseDir fs cwd name = some ((fs.parse cwd name).1, fs') ∧
      Shift d0 fs fs' (walkRefs (fs.parse cwd name)) := by
  obtain ⟨fs1, hbase, hsh1⟩ := openBase_spec h hcwd name
  have hd := h.baseDir_isDirectory hcwd name
  obtain ⟨rest, hstrtok, htail⟩ := strtokR_spec name
  unfold parseDir FS.parse
  simp only [hbase, hstrtok, some_bind]
  cases hcs : components name with
  | nil =>
    refine ⟨fs1, rfl, hsh1.mounted, hsh1.quiet, fun j => ?_⟩
    rw [hsh1.count]
    simp [FS.walk, walkRefs, opened]
  | cons dirName cs =>
    obtain ⟨rest', hstrtok', htail'⟩ := strtokR_spec rest
    rw [htail, hcs, tail_cons] at hstrtok' htail'
    have hopen : 0 < fs1.openCount (baseDir cwd name) := by
      have := h.mounted.vol.openCount_nonneg (baseDir cwd name)
      rw [hsh1.count, ref, if_pos rfl]
      omega
    have hfuel : cs.length ≤ name.length := by
      have hle : (components name).length ≤ name.length := length_tokensBy_le
      rw [hcs, length_cons] at hle
      omega
    obtain ⟨fs2, hloop, hsh2⟩ := parseDirLoop_spec h cs name.length fs1 _ hsh1 _ hd hopen dirName
      rest' htail' hfuel
    refine ⟨fs2, ?_, hsh1.trans hsh2 fun j => by omega⟩
    simp only [head?_cons, hstrtok']
    exact hloop

end

/-! ## What is looked up -/

/-- `parseDirLoop`, with each name that it looks up and what `dir_lookup` finds. -/
def parseDirLoopTraced : Nat → FS → Sector → CString → Option CString → CString →
    Option (List (CString × Option Sector) × Option Sector × FS)
  | fuel + 1, fs, dir, dirName, some nextDir, saveptr =>
    let (token, saveptr) := strtokR saveptr
    if dirName = DOT then parseDirLoopTraced fuel fs dir nextDir token saveptr
    else if dirName = DOTDOT then do
      let (_, fs) ← dirGetParentInode inodeOps fs dir
      parseDirLoopTraced fuel fs dir nextDir token saveptr
    else do
      let (found, fs) ← dirLookup inodeOps fs dir dirName
      match found with
      | none => some ([(dirName, none)], none, fs)
      | some inode => do
        let (dir, fs) ← enterInode fs dir inode
        let (calls, r) ← parseDirLoopTraced fuel fs dir nextDir token saveptr
        some ((dirName, some inode) :: calls, r)
  | _, fs, dir, _, _, _ => some ([], some dir, fs)

def parseDirTraced (fs : FS) (cwd : Option Sector) (name : CString) :
    Option (List (CString × Option Sector) × Option Sector × FS) := do
  let (dir, fs) ← openBase fs cwd name
  match strtokR name with
  | (none, _) => some ([], some dir, fs)
  | (some dirName, saveptr) =>
    let (nextDir, saveptr) := strtokR saveptr
    parseDirLoopTraced name.length fs dir dirName nextDir saveptr

/-- The names among `cs` that `parse_dir` has to look up. -/
def lookedUp (cs : List CString) : List CString :=
  cs.dropLast.filter fun c => c ≠ DOT ∧ c ≠ DOTDOT

theorem parseDirLoopTraced_spec (cs : List CString) (fuel : Nat) (fs : FS) (dir : Sector)
    (dirName saveptr : CString) (hrest : components saveptr = cs.tail) (hfuel : cs.length ≤ fuel)
    {r : Option Sector × FS} (hrun : parseDirLoop fuel fs dir dirName cs.head? saveptr = some r) :
    ∃ calls, parseDirLoopTraced fuel fs dir dirName cs.head? saveptr = some (calls, r) ∧
      ((∀ c ∈ calls, c.2 ≠ none) → calls.map (·.1) = lookedUp (dirName :: cs)) := by
  induction cs generalizing fuel fs dir dirName saveptr with
  | nil => cases fuel <;> cases hrun <;> exact ⟨[], rfl, fun _ => rfl⟩
  | cons nextDir cs ih =>
    obtain ⟨fuel, rfl⟩ : ∃ n, fuel = n + 1 := ⟨fuel - 1, by simp only [length_cons] at hfuel; omega⟩
    have hfuel' : cs.length ≤ fuel := Nat.le_of_succ_le_succ hfuel
    obtain ⟨rest, hstrtok, htail⟩ := strtokR_spec saveptr
    rw [hrest, tail_cons] at hstrtok htail
    rw [head?_cons, parseDirLoop, hstrtok] at hrun
    rw [head?_cons, parseDirLoopTraced, hstrtok]
    by_cases hdot : dirName = DOT
    · simp only [if_pos hdot] at hrun ⊢
      simpa [lookedUp, hdot] using ih fuel fs dir nextDir rest htail hfuel' hrun
    · simp only [if_neg hdot] at hrun ⊢
      by_cases hdotdot : dirName = DOTDOT
      · simp only [if_pos hdotdot] at hrun ⊢
        obtain ⟨⟨p, fs1⟩, hparent, hrun⟩ := Option.bind_eq_some_iff.mp hrun
        rw [hparent]
        simpa [lookedUp, hdotdot] using ih fuel fs1 dir nextDir rest htail hfuel' hrun
      · simp only [if_neg hdotdot] at hrun ⊢
        obtain ⟨⟨found, fs1⟩, hlook, hrun⟩ := Option.bind_eq_some_iff.mp hrun
        rw [hlook]
        cases found with
        | none =>
          cases hrun
          exact ⟨_, rfl, fun hfound => absurd rfl (hfound _ mem_cons_self)⟩
        | some inode =>
          obtain ⟨⟨dir', fs2⟩, henter, hrun⟩ := Option.bind_eq_some_iff.mp hrun
          obtain ⟨calls, htraced, hnames⟩ := ih fuel fs2 dir' nextDir rest htail hfuel' hrun
          refine ⟨(dirName, some inode) :: calls, ?_, fun hfound => ?_⟩
          · simp only [some_bind, henter, htraced]
          · have htail := hnames fun c hc => hfound c (mem_cons_of_mem _ hc)
            simpa [lookedUp, hdot, hdotdot] using htail

/-- **`parse_dir` and `parse_file` split a path alike.** If `dir_lookup` finds every name (as a
directory or not), `parse_dir` looks up the components before the last one. -/
theorem parse_splits_alike (name : CString) :
    parseFile name = (components name).getLastD [] ∧ ∀ (fs : FS) (cwd : Option Sector),
      (∀ r, parseDir fs cwd name = some r →
        ∃ calls, parseDirTraced fs cwd name = some (calls, r) ∧
          ((∀ c ∈ calls, c.2 ≠ none) → calls.map (·.1) = lookedUp (components name))) ∧
      (openBase fs cwd name = if name.head? = some SLASH ∨ cwd = none then
          some (ROOT_DIR_SECTOR, dirOpenRoot inodeOps fs)
        else cwd.bind fun dir => (dirReopen inodeOps fs dir).bind fun fs => some (dir, fs)) ∧
      ∀ d0, Idle d0 fs ∅ → CwdOk fs cwd → ∃ r, parseDir fs cwd name = some r := by
  refine ⟨parseFile_eq name, fun fs cwd => ⟨fun r hrun => ?_, ?_, fun d0 h hcwd => ?_⟩⟩
  · obtain ⟨⟨dir, fs1⟩, hbase, hrun⟩ := Option.bind_eq_some_iff.mp hrun
    obtain ⟨rest, hstrtok, htail⟩ := strtokR_spec name
    simp only [parseDirTraced, hbase, hstrtok, some_bind] at hrun ⊢
    have hfuel : (components name).length ≤ name.length := length_tokensBy_le
    cases hcs : components name with
    | nil =>
      rw [hcs] at hrun
      cases hrun
      exact ⟨[], rfl, fun _ => rfl⟩
    | cons dirName cs =>
      obtain ⟨rest', hstrtok', htail'⟩ := strtokR_spec rest
      rw [htail, hcs, tail_cons] at hstrtok' htail'
      rw [hcs] at hrun hfuel
      simp only [head?_cons, hstrtok'] at hrun ⊢
      exact parseDirLoopTraced_spec cs _ fs1 dir dirName rest' htail' (Nat.le_of_succ_le hfuel) hrun
  · cases cwd with
    | none => simp [openBase]
    | some dir =>
      simp only [openBase, reduceCtorEq, or_false]
      rfl
  · obtain ⟨fs', hparse, -⟩ := parseDir_spec h hcwd name
    exact ⟨_, hparse⟩

end Pintos.FileSys
