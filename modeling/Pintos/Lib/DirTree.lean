import Mathlib.Data.Set.Insert
import Mathlib.Logic.Function.Iterate

/-!
# Directory trees

A set of live nodes, some of which are directories; a directory has numbered
slots, each of them empty or holding a name and a node, and every directory
stores a parent. `WF root loose` says that this is a tree hanging on `root`:
every live node outside `loose` sits in exactly one slot, and the stored parents
lead to the root. The nodes in `loose` are those that are live without being in
the tree, for example while they are being created.

The changes a tree can undergo are stated for two trees that differ in the way
the change says, so that a model need not compute the new tree.
-/

namespace Pintos.Lib

open Set

variable {ν α : Type}

structure DirTree (ν α : Type) where
  live : Set ν
  dir : Set ν
  parent : ν → ν
  slot : ν → ℕ → Option (α × ν)

namespace DirTree

/-- From `d` the stored parents lead to the root, through directories of the
tree. -/
inductive Up (T : DirTree ν α) (root : ν) (loose : Set ν) : ν → Prop
  | root : Up T root loose root
  | step {d : ν} : d ∈ T.dir → d ∉ loose → Up T root loose (T.parent d) → Up T root loose d

structure WF (T : DirTree ν α) (root : ν) (loose : Set ν) : Prop where
  root_dir : root ∈ T.dir
  root_held : root ∉ loose
  dir_live : T.dir ⊆ T.live
  slot_held : ∀ {d k n t}, T.slot d k = some (n, t) → d ∈ T.dir ∧ d ∉ loose
  target : ∀ {d k n t}, T.slot d k = some (n, t) → t ∈ T.live ∧ t ∉ loose ∧ t ≠ root
  slot_inj : ∀ {d k n d' k' n' t}, T.slot d k = some (n, t) → T.slot d' k' = some (n', t) →
    d = d' ∧ k = k'
  name_inj : ∀ {d k k' n t t'}, T.slot d k = some (n, t) → T.slot d k' = some (n, t') → k = k'
  named : ∀ t ∈ T.live, t ∉ loose → t ≠ root → ∃ d k n, T.slot d k = some (n, t)
  parent_eq : ∀ {d k n t}, T.slot d k = some (n, t) → t ∈ T.dir → T.parent t = d
  up : ∀ d ∈ T.dir, d ∉ loose → T.Up root loose d

variable {T T' : DirTree ν α} {root : ν} {loose loose' : Set ν}

variable {d t : ν} {k : ℕ} {n : α}

theorem Up.iterate (h : T.Up root loose d) (hroot : root ∈ T.dir) :
    ∃ n, T.parent^[n] d = root ∧ ∀ m ≤ n, T.parent^[m] d ∈ T.dir := by
  induction h with
  | root =>
    refine ⟨0, rfl, fun m hm => ?_⟩
    obtain rfl : m = 0 := Nat.le_zero.mp hm
    exact hroot
  | step hd _ _ ih =>
    obtain ⟨n, hn, hall⟩ := ih
    refine ⟨n + 1, hn, fun m hm => ?_⟩
    cases m with
    | zero => exact hd
    | succ m => exact hall m (Nat.le_of_succ_le_succ hm)

theorem Up.keep (h : T.Up root loose d)
    (hstep : ∀ x ∈ T.dir, x ∉ loose → x ≠ root →
      x ∈ T'.dir ∧ x ∉ loose' ∧ T'.parent x = T.parent x) : T'.Up root loose' d := by
  induction h with
  | root => exact .root
  | @step x hd hl _ ih =>
    by_cases hx : x = root
    · rw [hx]
      exact .root
    · obtain ⟨hd', hl', hp⟩ := hstep x hd hl hx
      exact .step hd' hl' (hp ▸ ih)

theorem WF.target_ne (h : T.WF root loose) (hk : T.slot d k = some (n, t)) : t ≠ d := by
  rintro rfl
  obtain ⟨hd, hl⟩ := h.slot_held hk
  have hself := h.parent_eq hk hd
  -- its chain would never leave it
  have hnot : ∀ x, T.Up root loose x → x ≠ t := by
    intro x hx
    induction hx with
    | root => exact fun he => (h.target hk).2.2 he.symm
    | step _ _ _ ih =>
      rintro rfl
      exact ih hself
  exact hnot t (h.up t hd hl) rfl

theorem WF.congr (h : T.WF root loose) (hlive : T'.live = T.live) (hdir : T'.dir = T.dir)
    (hparent : ∀ d ∈ T.dir, T'.parent d = T.parent d) (hslot : T'.slot = T.slot)
    (hloose : ∀ x ∈ T.live, x ∈ loose' ↔ x ∈ loose) : T'.WF root loose' where
  root_dir := hdir ▸ h.root_dir
  root_held := fun hr => h.root_held ((hloose _ (h.dir_live h.root_dir)).mp hr)
  dir_live := by
    rw [hdir, hlive]
    exact h.dir_live
  slot_held := by
    rw [hslot, hdir]
    intro d k n t hk
    obtain ⟨hd, hl⟩ := h.slot_held hk
    exact ⟨hd, fun hd' => hl ((hloose _ (h.dir_live hd)).mp hd')⟩
  target := by
    rw [hslot, hlive]
    intro d k n t hk
    obtain ⟨ht, hl, hr⟩ := h.target hk
    exact ⟨ht, fun ht' => hl ((hloose _ ht).mp ht'), hr⟩
  slot_inj := by
    rw [hslot]
    exact h.slot_inj
  name_inj := by
    rw [hslot]
    exact h.name_inj
  named := by
    rw [hslot, hlive]
    exact fun t ht hl hr => h.named t ht (fun ht' => hl ((hloose _ ht).mpr ht')) hr
  parent_eq := by
    rw [hslot, hdir]
    intro d k n t hk ht
    rw [hparent t ht]
    exact h.parent_eq hk ht
  up := by
    rw [hdir]
    intro d hd hl
    refine (h.up d hd fun hd' => hl ((hloose _ (h.dir_live hd)).mpr hd')).keep fun x hx hxl _ => ?_
    exact ⟨hdir ▸ hx, fun hx' => hxl ((hloose _ (h.dir_live hx)).mp hx'), hparent x hx⟩

theorem WF.create (h : T.WF root loose) {s : ν} (hs : s ∉ T.live)
    (hlive : T'.live = insert s T.live) (hsub : T'.dir ⊆ T'.live)
    (hdir : ∀ d, d ≠ s → (d ∈ T'.dir ↔ d ∈ T.dir))
    (hparent : ∀ d ∈ T.dir, T'.parent d = T.parent d) (hslot : T'.slot = T.slot) :
    T'.WF root (insert s loose) := by
  have hne : ∀ {x : ν}, x ∈ T.live → x ≠ s := fun hx he => hs (he ▸ hx)
  have hheld : ∀ {x : ν}, x ∈ T.live → x ∉ loose → x ∉ insert s loose := by
    intro x hx hl hmem
    rcases mem_insert_iff.mp hmem with he | hmem
    · exact hne hx he
    · exact hl hmem
  have hin : ∀ {x : ν}, x ∈ T.dir → x ∈ T'.dir := fun hx =>
    (hdir _ (hne (h.dir_live hx))).mpr hx
  refine ⟨hin h.root_dir, hheld (h.dir_live h.root_dir) h.root_held, hsub, ?_, ?_, ?_, ?_, ?_, ?_, ?_⟩
  · rw [hslot]
    intro d k n t hk
    obtain ⟨hd, hl⟩ := h.slot_held hk
    exact ⟨hin hd, hheld (h.dir_live hd) hl⟩
  · rw [hslot]
    intro d k n t hk
    obtain ⟨ht, hl, hr⟩ := h.target hk
    exact ⟨hlive ▸ mem_insert_of_mem _ ht, hheld ht hl, hr⟩
  · rw [hslot]
    exact h.slot_inj
  · rw [hslot]
    exact h.name_inj
  · rw [hslot, hlive]
    intro t ht hl hr
    have hts : t ≠ s := fun he => hl (he ▸ mem_insert _ _)
    exact h.named t (mem_of_mem_insert_of_ne ht hts)
      (fun ht' => hl (mem_insert_of_mem _ ht')) hr
  · rw [hslot]
    intro d k n t hk ht
    have htd := (hdir t (hne (h.target hk).1)).mp ht
    rw [hparent t htd]
    exact h.parent_eq hk htd
  · intro d hd hl
    have hds : d ≠ s := fun he => hl (he ▸ mem_insert _ _)
    refine (h.up d ((hdir d hds).mp hd) fun hd' => hl (mem_insert_of_mem _ hd')).keep ?_
    exact fun x hx hxl _ => ⟨hin hx, hheld (h.dir_live hx) hxl, hparent x hx⟩

/-- A loose node is put into an empty slot of a directory, under a name that is
not in use there. Its parent becomes the directory. -/
theorem WF.link (h : T.WF root (insert t loose)) (ht : t ∈ T.live) (htl : t ∉ loose)
    (hd : d ∈ T.dir) (hdl : d ∉ insert t loose) (hfree : T.slot d k = none)
    (hname : ∀ k' t', T.slot d k' ≠ some (n, t')) (hlive : T'.live = T.live) (hdir : T'.dir = T.dir)
    (hparent : ∀ x ∈ T.dir, x ≠ t → T'.parent x = T.parent x) (hpt : T'.parent t = d)
    (hnew : T'.slot d k = some (n, t))
    (hold : ∀ d' k', ¬ (d' = d ∧ k' = k) → T'.slot d' k' = T.slot d' k') :
    T'.WF root loose := by
  have hmem : t ∈ insert t loose := mem_insert _ _
  have hsub : ∀ {x : ν}, x ∉ insert t loose → x ∉ loose := fun hx hl =>
    hx (mem_insert_of_mem _ hl)
  -- a slot of the new tree is the new one or one of the old tree
  have hcases : ∀ {d' k' n' t'}, T'.slot d' k' = some (n', t') →
      (d' = d ∧ k' = k ∧ n' = n ∧ t' = t) ∨ (T.slot d' k' = some (n', t') ∧ t' ≠ t) := by
    intro d' k' n' t' hk
    by_cases he : d' = d ∧ k' = k
    · obtain ⟨rfl, rfl⟩ := he
      rw [hnew] at hk
      cases hk
      exact Or.inl ⟨rfl, rfl, rfl, rfl⟩
    · rw [hold _ _ he] at hk
      exact Or.inr ⟨hk, fun htt => (h.target hk).2.1 (htt ▸ hmem)⟩
  have hkeep : ∀ {d' k' n' t'}, T.slot d' k' = some (n', t') → T'.slot d' k' = some (n', t') := by
    intro d' k' n' t' hk
    rw [hold _ _ ?_]
    · exact hk
    · rintro ⟨rfl, rfl⟩
      rw [hfree] at hk
      cases hk
  refine ⟨hdir ▸ h.root_dir, hsub h.root_held, ?_, ?_, ?_, ?_, ?_, ?_, ?_, ?_⟩
  · rw [hdir, hlive]
    exact h.dir_live
  · intro d' k' n' t' hk
    rw [hdir]
    rcases hcases hk with ⟨rfl, -, -, -⟩ | ⟨hk, -⟩
    · exact ⟨hd, hsub hdl⟩
    · exact ⟨(h.slot_held hk).1, hsub (h.slot_held hk).2⟩
  · intro d' k' n' t' hk
    rw [hlive]
    rcases hcases hk with ⟨-, -, -, rfl⟩ | ⟨hk, -⟩
    · exact ⟨ht, htl, fun hr => h.root_held (hr ▸ hmem)⟩
    · obtain ⟨h1, h2, h3⟩ := h.target hk
      exact ⟨h1, hsub h2, h3⟩
  · intro d1 k1 n1 d2 k2 n2 t' hk1 hk2
    rcases hcases hk1 with ⟨rfl, rfl, -, rfl⟩ | ⟨hk1, hne1⟩
    · rcases hcases hk2 with ⟨rfl, rfl, -, -⟩ | ⟨-, hne2⟩
      · exact ⟨rfl, rfl⟩
      · exact absurd rfl hne2
    · rcases hcases hk2 with ⟨-, -, -, rfl⟩ | ⟨hk2, -⟩
      · exact absurd rfl hne1
      · exact h.slot_inj hk1 hk2
  · intro d' k1 k2 n' t1 t2 hk1 hk2
    rcases hcases hk1 with ⟨rfl, rfl, rfl, -⟩ | ⟨hk1, -⟩
    · rcases hcases hk2 with ⟨-, rfl, -, -⟩ | ⟨hk2, -⟩
      · rfl
      · exact absurd hk2 (hname _ _)
    · rcases hcases hk2 with ⟨rfl, -, rfl, -⟩ | ⟨hk2, -⟩
      · exact absurd hk1 (hname _ _)
      · exact h.name_inj hk1 hk2
  · intro x hx hl hr
    by_cases hxt : x = t
    · exact ⟨d, k, n, hxt ▸ hnew⟩
    · obtain ⟨d', k', n', hk⟩ := h.named x (hlive ▸ hx) (by simp [hxt, hl]) hr
      exact ⟨d', k', n', hkeep hk⟩
  · intro d' k' n' t' hk htd
    rw [hdir] at htd
    rcases hcases hk with ⟨rfl, -, -, rfl⟩ | ⟨hk, hne⟩
    · exact hpt
    · rw [hparent t' htd hne]
      exact h.parent_eq hk htd
  · -- the chain of `t` is that of `d` with one more step; `t` is on no other chain
    have hchain : ∀ x ∈ T.dir, x ∉ insert t loose → T'.Up root loose x := by
      intro x hx hl
      refine (h.up x hx hl).keep fun y hy hyl _ => ⟨hdir ▸ hy, hsub hyl, hparent y hy ?_⟩
      exact fun he => hyl (he ▸ hmem)
    intro x hx hl
    rw [hdir] at hx
    by_cases hxt : x = t
    · subst hxt
      exact .step (hdir ▸ hx) hl (hpt ▸ hchain d hd hdl)
    · exact hchain x hx (by simp [hxt, hl])

theorem WF.unlink (h : T.WF root loose) (hk : T.slot d k = some (n, t))
    (hempty : ∀ k', T.slot t k' = none) (hlive : T'.live = T.live) (hdir : T'.dir = T.dir)
    (hparent : ∀ x ∈ T.dir, T'.parent x = T.parent x) (hnew : T'.slot d k = none)
    (hold : ∀ d' k', ¬ (d' = d ∧ k' = k) → T'.slot d' k' = T.slot d' k') :
    T'.WF root (insert t loose) := by
  -- a slot of the new tree is one of the old tree, and not that of `t`
  have hcases : ∀ {d' k' n' t'}, T'.slot d' k' = some (n', t') →
      T.slot d' k' = some (n', t') ∧ t' ≠ t := by
    intro d' k' n' t' hk'
    have hne : ¬ (d' = d ∧ k' = k) := by
      rintro ⟨rfl, rfl⟩
      rw [hnew] at hk'
      cases hk'
    rw [hold _ _ hne] at hk'
    exact ⟨hk', fun htt => hne (h.slot_inj hk' (htt ▸ hk))⟩
  have hheld : ∀ {x : ν}, x ∉ loose → x ≠ t → x ∉ insert t loose := by
    intro x hl hne hmem
    rcases mem_insert_iff.mp hmem with he | hmem
    · exact hne he
    · exact hl hmem
  -- `t` is the parent of no directory
  have hbelow : ∀ {d' k' n' t'}, T.slot d' k' = some (n', t') → d' ≠ t := by
    rintro d' k' n' t' hk' rfl
    rw [hempty] at hk'
    cases hk'
  refine ⟨hdir ▸ h.root_dir, hheld h.root_held (h.target hk).2.2.symm, ?_, ?_, ?_, ?_, ?_, ?_, ?_, ?_⟩
  · rw [hdir, hlive]
    exact h.dir_live
  · intro d' k' n' t' hk'
    rw [hdir]
    have hk' := (hcases hk').1
    exact ⟨(h.slot_held hk').1, hheld (h.slot_held hk').2 (hbelow hk')⟩
  · intro d' k' n' t' hk'
    rw [hlive]
    obtain ⟨hk', hne⟩ := hcases hk'
    obtain ⟨h1, h2, h3⟩ := h.target hk'
    exact ⟨h1, hheld h2 hne, h3⟩
  · intro d1 k1 n1 d2 k2 n2 t' hk1 hk2
    exact h.slot_inj (hcases hk1).1 (hcases hk2).1
  · intro d' k1 k2 n' t1 t2 hk1 hk2
    exact h.name_inj (hcases hk1).1 (hcases hk2).1
  · intro x hx hl hr
    have hxt : x ≠ t := fun he => hl (he ▸ mem_insert _ _)
    obtain ⟨d', k', n', hk'⟩ := h.named x (hlive ▸ hx) (fun hx' => hl (mem_insert_of_mem _ hx')) hr
    refine ⟨d', k', n', ?_⟩
    rw [hold _ _ ?_]
    · exact hk'
    · rintro ⟨rfl, rfl⟩
      rw [hk] at hk'
      cases hk'
      exact hxt rfl
  · intro d' k' n' t' hk' htd
    rw [hdir] at htd
    rw [hparent t' htd]
    exact h.parent_eq (hcases hk').1 htd
  · intro x hx hl
    rw [hdir] at hx
    have hxl : x ∉ loose := fun hx' => hl (mem_insert_of_mem _ hx')
    have hxt : x ≠ t := fun he => hl (he ▸ mem_insert _ _)
    have hup := h.up x hx hxl
    -- every directory on the chain is above a directory, so it is not `t`
    clear hl
    induction hup with
    | root => exact .root
    | @step y hy hyl _ ih =>
      by_cases hyr : y = root
      · rw [hyr]
        exact .root
      · obtain ⟨d', k', n', hk'⟩ := h.named y (h.dir_live hy) hyl hyr
        have hpy := h.parent_eq hk' hy
        obtain ⟨hd', hl'⟩ := h.slot_held hk'
        refine .step (hdir ▸ hy) (hheld hyl hxt) ?_
        rw [hparent y hy]
        rw [hpy] at ih ⊢
        exact ih hd' hl' (hbelow hk')

theorem WF.destroy (h : T.WF root loose) (ht : t ∈ loose) (hlive : T'.live = T.live \ {t})
    (hdir : T'.dir = T.dir \ {t}) (hparent : ∀ x ∈ T'.dir, T'.parent x = T.parent x)
    (hslot : T'.slot = T.slot) : T'.WF root loose := by
  have hne : ∀ {x : ν}, x ∉ loose → x ∉ ({t} : Set ν) := fun hx he => hx (he ▸ ht)
  have hin : ∀ {x : ν}, x ∈ T.dir → x ∉ loose → x ∈ T'.dir := by
    intro x hx hl
    rw [hdir]
    exact ⟨hx, hne hl⟩
  have hout : ∀ {x : ν}, x ∈ T'.dir → x ∈ T.dir := fun hx => (hdir ▸ hx : _ ∈ T.dir \ {t}).1
  refine ⟨hin h.root_dir h.root_held, h.root_held, ?_, ?_, ?_, ?_, ?_, ?_, ?_, ?_⟩
  · intro x hx
    rw [hdir] at hx
    rw [hlive]
    exact ⟨h.dir_live hx.1, hx.2⟩
  · rw [hslot]
    intro d k n t' hk
    obtain ⟨hd, hl⟩ := h.slot_held hk
    exact ⟨hin hd hl, hl⟩
  · rw [hslot, hlive]
    intro d k n t' hk
    obtain ⟨h1, h2, h3⟩ := h.target hk
    exact ⟨⟨h1, hne h2⟩, h2, h3⟩
  · rw [hslot]
    exact h.slot_inj
  · rw [hslot]
    exact h.name_inj
  · rw [hslot, hlive]
    exact fun x hx hl hr => h.named x hx.1 hl hr
  · rw [hslot]
    intro d k n t' hk ht'
    rw [hparent t' ht']
    exact h.parent_eq hk (hout ht')
  · intro d hd hl
    refine (h.up d (hout hd) hl).keep fun x hx hxl _ => ⟨hin hx hxl, hxl, ?_⟩
    exact hparent x (hin hx hxl)

/-! ## Paths -/

end DirTree

end Pintos.Lib
