/-
# Trees of directories

Objects of two kinds, directories and files. A directory has slots, each of which is empty
or refers to an object, and a parent. The table is a tree if every directory but the root is
referred to by exactly one slot, one of its parent's, and all of them are below the root.
Files may be referred to by any number of slots.

The links of an object are the slots that refer to it and the directories it is the parent
of. The lemmas say which changes of a table keep it a tree and what they do to the links.
-/

import Mathlib.Algebra.BigOperators.Group.Finset.Piecewise
import Mathlib.Algebra.Order.BigOperators.Group.Finset
import Mathlib.Logic.Relation

namespace Xv6.Lib

/-- Directories, files, and what directories refer to. -/
structure LinkTable (ι : Type*) where
  dirs : Finset ι
  files : Finset ι
  slots : ι → List (Option ι)
  parent : ι → ι

namespace LinkTable

variable {ι : Type*} [DecidableEq ι]

/-- A slot of the directory `d` refers to `i`. -/
def Refers (t : LinkTable ι) (d i : ι) : Prop := d ∈ t.dirs ∧ some i ∈ t.slots d

/-- The links from one directory. -/
def linksFrom (t : LinkTable ι) (d i : ι) : ℕ :=
  (t.slots d).count (some i) + if t.parent d = i then 1 else 0

/-- The links of an object. -/
def links (t : LinkTable ι) (i : ι) : ℕ := ∑ d ∈ t.dirs, t.linksFrom d i

/-- The directories form a tree. -/
structure Tree (root : ι) (t : LinkTable ι) : Prop where
  root_mem : root ∈ t.dirs
  parent_root : t.parent root = root
  apart : ∀ i ∈ t.files, i ∉ t.dirs
  target : ∀ d i, t.Refers d i → i ∈ t.files ∨ i ∈ t.dirs ∧ i ≠ root ∧ t.parent i = d
  once : ∀ d ∈ t.dirs, ∀ i ∈ t.dirs, (t.slots d).count (some i) ≤ 1
  reach : ∀ d ∈ t.dirs, Relation.ReflTransGen t.Refers root d

variable {root d i x : ι} {t t' : LinkTable ι}

theorem refers_iff : t.Refers d i ↔ d ∈ t.dirs ∧ 0 < (t.slots d).count (some i) := by
  unfold Refers
  rw [List.count_pos_iff]

namespace Tree

/-- A directory is in its parent only. -/
theorem parent_eq (h : Tree root t) (href : t.Refers d i) (hi : i ∈ t.dirs) :
    i ≠ root ∧ t.parent i = d :=
  ((h.target d i href).resolve_left fun hfile => h.apart i hfile hi).2

/-- A directory below the root is in its parent. -/
theorem refers_parent (h : Tree root t) (hd : d ∈ t.dirs) (hne : d ≠ root) :
    t.Refers (t.parent d) d := by
  cases h.reach d hd with
  | refl => exact (hne rfl).elim
  | tail _ hlast =>
    rw [(h.parent_eq hlast hd).2]
    exact hlast

theorem parent_mem (h : Tree root t) (hd : d ∈ t.dirs) : t.parent d ∈ t.dirs := by
  by_cases hroot : d = root
  · rw [hroot, h.parent_root]
    exact h.root_mem
  · exact (h.refers_parent hd hroot).1

theorem le_links (hd : d ∈ t.dirs) : t.linksFrom d i ≤ t.links i :=
  Finset.single_le_sum (f := fun d => t.linksFrom d i) (fun _ _ => Nat.zero_le _) hd

theorem links_pos_of_refers (h : t.Refers d i) : 0 < t.links i := by
  obtain ⟨hd, hcount⟩ := refers_iff.mp h
  have := le_links (i := i) hd
  unfold linksFrom at this
  omega

theorem links_pos_of_parent (hd : d ∈ t.dirs) : 0 < t.links (t.parent d) := by
  have := le_links (i := t.parent d) hd
  unfold linksFrom at this
  rw [if_pos rfl] at this
  omega

/-- A directory has a link. -/
theorem links_pos (h : Tree root t) (hd : d ∈ t.dirs) : 0 < t.links d := by
  by_cases hroot : d = root
  · have hpos := links_pos_of_parent hd
    rw [hroot, h.parent_root] at hpos
    rw [hroot]
    exact hpos
  · exact links_pos_of_refers (h.refers_parent hd hroot)

/-- What has a link is an object of the table. -/
theorem mem_of_links (h : Tree root t) (hpos : 0 < t.links i) : i ∈ t.files ∨ i ∈ t.dirs := by
  obtain ⟨d, hd, hlink⟩ := Finset.exists_ne_zero_of_sum_ne_zero hpos.ne'
  by_cases hcount : 0 < (t.slots d).count (some i)
  · exact (h.target d i (refers_iff.mpr ⟨hd, hcount⟩)).imp_right And.left
  · unfold linksFrom at hlink
    by_cases hparent : t.parent d = i
    · exact .inr (hparent ▸ h.parent_mem hd)
    · rw [if_neg hparent] at hlink
      omega

/-- A file with a link is below the root. -/
theorem reach_of_links (h : Tree root t) (hi : i ∈ t.files) (hpos : 0 < t.links i) :
    Relation.ReflTransGen t.Refers root i := by
  obtain ⟨d, hd, hlink⟩ := Finset.exists_ne_zero_of_sum_ne_zero hpos.ne'
  have hparent : t.parent d ≠ i := fun heq => h.apart i hi (heq ▸ h.parent_mem hd)
  unfold linksFrom at hlink
  rw [if_neg hparent] at hlink
  exact (h.reach d hd).tail (refers_iff.mpr ⟨hd, Nat.pos_of_ne_zero hlink⟩)

end Tree

/-- Another table with the same directories. -/
structure SameDirs (t t' : LinkTable ι) : Prop where
  dirs_eq : t'.dirs = t.dirs
  slots_eq : ∀ d ∈ t.dirs, t'.slots d = t.slots d
  parent_eq : ∀ d ∈ t.dirs, t'.parent d = t.parent d

namespace SameDirs

theorem links_eq (h : SameDirs t t') (i : ι) : t'.links i = t.links i := by
  unfold links
  rw [h.dirs_eq]
  refine Finset.sum_congr rfl fun d hd => ?_
  unfold linksFrom
  rw [h.slots_eq d hd, h.parent_eq d hd]

omit [DecidableEq ι] in
theorem refers_eq (h : SameDirs t t') : t'.Refers = t.Refers := by
  funext d i
  unfold Refers
  rw [h.dirs_eq]
  refine propext (and_congr_right fun hd => ?_)
  rw [h.slots_eq d hd]

/-- The files may change as long as those referred to stay and no directory becomes one. -/
theorem tree (h : SameDirs t t') (htree : Tree root t) (hapart : ∀ i ∈ t'.files, i ∉ t.dirs)
    (hkeep : ∀ i ∈ t.files, 0 < t.links i → i ∈ t'.files) : Tree root t' := by
  refine ⟨?_, ?_, ?_, fun d i href => ?_, ?_, ?_⟩
  · rw [h.dirs_eq]
    exact htree.root_mem
  · rw [h.parent_eq root htree.root_mem]
    exact htree.parent_root
  · rw [h.dirs_eq]
    exact hapart
  · rw [h.refers_eq] at href
    grind [Tree.links_pos_of_refers, htree.target, h.dirs_eq, h.parent_eq]
  · rw [h.dirs_eq]
    intro d hd i hi
    rw [h.slots_eq d hd]
    exact htree.once d hd i hi
  · rw [h.dirs_eq, h.refers_eq]
    exact htree.reach

end SameDirs

/-- In `t'` the slots of the directory `d` are others. -/
structure Reslots (d : ι) (t t' : LinkTable ι) : Prop where
  mem : d ∈ t.dirs
  dirs_eq : t'.dirs = t.dirs
  files_eq : t'.files = t.files
  slots_eq : ∀ e ∈ t.dirs, e ≠ d → t'.slots e = t.slots e
  parent_eq : ∀ e ∈ t.dirs, t'.parent e = t.parent e

namespace Reslots

theorem links_eq (h : Reslots d t t') (i : ι) :
    t'.links i + (t.slots d).count (some i) = t.links i + (t'.slots d).count (some i) := by
  have hsplit : ∀ u : LinkTable ι, u.dirs = t.dirs →
      u.links i = u.linksFrom d i + ∑ e ∈ t.dirs.erase d, u.linksFrom e i := by
    intro u hu
    unfold links
    rw [hu, ← Finset.add_sum_erase _ (fun e => u.linksFrom e i) h.mem]
  have hothers : ∑ e ∈ t.dirs.erase d, t'.linksFrom e i =
      ∑ e ∈ t.dirs.erase d, t.linksFrom e i := by
    refine Finset.sum_congr rfl fun e he => ?_
    have hmem := Finset.mem_of_mem_erase he
    unfold linksFrom
    rw [h.slots_eq e hmem (Finset.ne_of_mem_erase he), h.parent_eq e hmem]
  rw [hsplit t' h.dirs_eq, hsplit t rfl, hothers]
  unfold linksFrom
  rw [h.parent_eq d h.mem]
  omega

/-- Slots that refer to the same directories as before, and to files. -/
theorem tree (h : Reslots d t t') (htree : Tree root t)
    (hdirs : ∀ i ∈ t.dirs, (t'.slots d).count (some i) = (t.slots d).count (some i))
    (hfiles : ∀ i, some i ∈ t'.slots d → i ∈ t.files ∨ i ∈ t.dirs) : Tree root t' := by
  have hcount : ∀ e ∈ t.dirs, ∀ i ∈ t.dirs,
      (t'.slots e).count (some i) = (t.slots e).count (some i) := by
    intro e he i hi
    by_cases hed : e = d
    · rw [hed]
      exact hdirs i hi
    · rw [h.slots_eq e he hed]
  have hrefers : ∀ e, ∀ i ∈ t.dirs, t'.Refers e i ↔ t.Refers e i := by
    grind [refers_iff, h.dirs_eq]
  refine ⟨?_, ?_, ?_, fun e i href => ?_, ?_, fun e he => ?_⟩
  · rw [h.dirs_eq]
    exact htree.root_mem
  · rw [h.parent_eq root htree.root_mem]
    exact htree.parent_root
  · rw [h.files_eq, h.dirs_eq]
    exact htree.apart
  · rw [h.files_eq, h.dirs_eq]
    by_cases hi : i ∈ t.dirs
    · rw [h.parent_eq i hi]
      exact htree.target e i ((hrefers e i hi).mp href)
    · refine .inl ?_
      obtain ⟨he, hmem⟩ := href
      rw [h.dirs_eq] at he
      by_cases hed : e = d
      · rw [hed] at hmem
        exact (hfiles i hmem).resolve_right hi
      · rw [h.slots_eq e he hed] at hmem
        exact (htree.target e i ⟨he, hmem⟩).resolve_right fun hdir => hi hdir.1
  · rw [h.dirs_eq]
    intro e he i hi
    rw [hcount e he i hi]
    exact htree.once e he i hi
  · rw [h.dirs_eq] at he
    -- every directory on the way is one the slots still refer to
    have hway : ∀ e, Relation.ReflTransGen t.Refers root e → e ∈ t.dirs →
        Relation.ReflTransGen t'.Refers root e := by
      intro e hreach
      induction hreach with
      | refl => exact fun _ => .refl
      | tail _ hlast ih => exact fun hmem => (ih hlast.1).tail ((hrefers _ _ hmem).mpr hlast)
    exact hway e (htree.reach e he) he

end Reslots

/-- In `t'` there is another directory `i`, without links, in a slot of `d`. -/
structure AddsDir (d i : ι) (t t' : LinkTable ι) : Prop where
  mem : d ∈ t.dirs
  fresh : i ∉ t.files ∧ i ∉ t.dirs
  dirs_eq : t'.dirs = insert i t.dirs
  files_eq : t'.files = t.files
  slots_new : ∀ x, (t'.slots i).count (some x) = 0
  parent_new : t'.parent i = d
  slots_parent : ∀ x, (t'.slots d).count (some x) =
    (t.slots d).count (some x) + if i = x then 1 else 0
  slots_eq : ∀ e ∈ t.dirs, e ≠ d → t'.slots e = t.slots e
  parent_eq : ∀ e ∈ t.dirs, t'.parent e = t.parent e

namespace AddsDir

theorem count_eq (h : AddsDir d i t t') {e : ι} (he : e ∈ t.dirs) (x : ι) :
    (t'.slots e).count (some x) =
      (t.slots e).count (some x) + if e = d ∧ i = x then 1 else 0 := by
  by_cases hed : e = d
  · rw [hed, h.slots_parent]
    simp only [true_and]
  · rw [h.slots_eq e he hed, if_neg fun hc => hed hc.1, add_zero]

theorem links_eq (h : AddsDir d i t t') (x : ι) : t'.links x =
    t.links x + (if i = x then 1 else 0) + if d = x then 1 else 0 := by
  have hold : ∑ e ∈ t.dirs, t'.linksFrom e x =
      ∑ e ∈ t.dirs, (t.linksFrom e x + if e = d ∧ i = x then 1 else 0) := by
    refine Finset.sum_congr rfl fun e he => ?_
    unfold linksFrom
    rw [h.count_eq he, h.parent_eq e he]
    omega
  have hone : ∑ e ∈ t.dirs, (if e = d ∧ i = x then 1 else 0) = if i = x then 1 else 0 := by
    by_cases hix : i = x
    · simp only [hix, and_true, if_true]
      rw [Finset.sum_ite_eq_of_mem' _ _ _ h.mem]
    · simp only [hix, and_false, if_false, Finset.sum_const_zero]
  unfold links
  rw [h.dirs_eq, Finset.sum_insert h.fresh.2, hold, Finset.sum_add_distrib, hone]
  unfold linksFrom
  rw [h.slots_new, h.parent_new]
  omega

theorem tree (h : AddsDir d i t t') (htree : Tree root t) : Tree root t' := by
  have hne : ∀ e ∈ t.dirs, e ≠ i := fun e he heq => h.fresh.2 (heq ▸ he)
  have hrefers : ∀ e x, t.Refers e x → t'.Refers e x := by
    intro e x href
    obtain ⟨he, hpos⟩ := refers_iff.mp href
    refine refers_iff.mpr ⟨?_, ?_⟩
    · rw [h.dirs_eq]
      exact Finset.mem_insert_of_mem he
    · rw [h.count_eq he]
      omega
  have hnew : t'.Refers d i := by
    refine refers_iff.mpr ⟨?_, ?_⟩
    · rw [h.dirs_eq]
      exact Finset.mem_insert_of_mem h.mem
    · rw [h.slots_parent, if_pos rfl]
      omega
  have hroot := htree.root_mem
  refine ⟨?_, ?_, ?_, fun e x href => ?_, fun e he x hx => ?_, fun e he => ?_⟩
  · rw [h.dirs_eq]
    exact Finset.mem_insert_of_mem hroot
  · rw [h.parent_eq root hroot]
    exact htree.parent_root
  · rw [h.files_eq, h.dirs_eq]
    intro x hx hmem
    rcases Finset.mem_insert.mp hmem with heq | hdir
    · exact h.fresh.1 (heq ▸ hx)
    · exact htree.apart x hx hdir
  · obtain ⟨he, hpos⟩ := refers_iff.mp href
    rw [h.dirs_eq] at he ⊢
    rw [h.files_eq]
    rcases Finset.mem_insert.mp he with heq | he
    · rw [heq, h.slots_new] at hpos
      exact (Nat.lt_irrefl 0 hpos).elim
    · rw [h.count_eq he] at hpos
      by_cases hnewslot : e = d ∧ i = x
      · grind [h.parent_new]
      · rw [if_neg hnewslot, add_zero] at hpos
        obtain hfile | ⟨hdir, hxroot, hparent⟩ := htree.target e x (refers_iff.mpr ⟨he, hpos⟩)
        · exact .inl hfile
        · rw [h.parent_eq x hdir]
          exact .inr ⟨Finset.mem_insert_of_mem hdir, hxroot, hparent⟩
  · rw [h.dirs_eq] at he hx
    rcases Finset.mem_insert.mp he with heq | he
    · rw [heq, h.slots_new]
      exact Nat.zero_le 1
    · rw [h.count_eq he]
      rcases Finset.mem_insert.mp hx with heq | hx
      · -- nothing referred to `i` before
        have hzero : (t.slots e).count (some i) = 0 := by
          by_contra hpos
          have href := refers_iff.mpr ⟨he, Nat.pos_of_ne_zero hpos⟩
          obtain hfile | hdir := htree.target e i href
          · exact h.fresh.1 hfile
          · exact h.fresh.2 hdir.1
        rw [heq, hzero]
        split <;> decide
      · rw [if_neg fun hc => hne x hx hc.2.symm, add_zero]
        exact htree.once e he x hx
  · rw [h.dirs_eq] at he
    rcases Finset.mem_insert.mp he with heq | he
    · rw [heq]
      exact (Relation.ReflTransGen.mono hrefers _ _ (htree.reach d h.mem)).tail hnew
    · exact Relation.ReflTransGen.mono hrefers _ _ (htree.reach e he)

end AddsDir

/-- In `t'` the directory `i`, which had nothing in its slots, is gone, and so is the slot of
`d` that referred to it. -/
structure DropsDir (d i : ι) (t t' : LinkTable ι) : Prop where
  mem : d ∈ t.dirs
  dir : i ∈ t.dirs
  refers : t.Refers d i
  empty : ∀ x, (t.slots i).count (some x) = 0
  dirs_eq : t'.dirs = t.dirs.erase i
  files_eq : t'.files = t.files
  slots_parent : ∀ x, (t.slots d).count (some x) =
    (t'.slots d).count (some x) + if i = x then 1 else 0
  slots_eq : ∀ e ∈ t.dirs, e ≠ d → e ≠ i → t'.slots e = t.slots e
  parent_eq : ∀ e ∈ t.dirs, e ≠ i → t'.parent e = t.parent e

namespace DropsDir

theorem ne (h : DropsDir d i t t') : d ≠ i := by
  rintro rfl
  have hpos := (refers_iff.mp h.refers).2
  rw [h.empty] at hpos
  exact Nat.lt_irrefl 0 hpos

theorem count_eq (h : DropsDir d i t t') {e : ι} (he : e ∈ t.dirs) (hei : e ≠ i) (x : ι) :
    (t.slots e).count (some x) =
      (t'.slots e).count (some x) + if e = d ∧ i = x then 1 else 0 := by
  by_cases hed : e = d
  · rw [hed, h.slots_parent]
    simp only [true_and]
  · rw [h.slots_eq e he hed hei, if_neg fun hc => hed hc.1, add_zero]

theorem links_eq (h : DropsDir d i t t') (htree : Tree root t) (x : ι) : t.links x =
    t'.links x + (if i = x then 1 else 0) + if d = x then 1 else 0 := by
  have hparent : t.parent i = d := by
    grind [htree.target, h.refers, htree.apart, h.dir]
  have hold : ∑ e ∈ t.dirs.erase i, t.linksFrom e x =
      ∑ e ∈ t.dirs.erase i, (t'.linksFrom e x + if e = d ∧ i = x then 1 else 0) := by
    refine Finset.sum_congr rfl fun e he => ?_
    obtain ⟨hei, he⟩ := Finset.mem_erase.mp he
    unfold linksFrom
    rw [h.count_eq he hei, h.parent_eq e he hei]
    omega
  have hone : ∑ e ∈ t.dirs.erase i, (if e = d ∧ i = x then 1 else 0) = if i = x then 1 else 0 := by
    by_cases hix : i = x
    · simp only [hix, and_true, if_true]
      rw [Finset.sum_ite_eq_of_mem' _ _ _ (Finset.mem_erase.mpr ⟨hix ▸ h.ne, h.mem⟩)]
    · simp only [hix, and_false, if_false, Finset.sum_const_zero]
  unfold links
  rw [← Finset.add_sum_erase _ _ h.dir, hold, Finset.sum_add_distrib, hone, h.dirs_eq]
  unfold linksFrom
  rw [h.empty, hparent]
  omega

theorem tree (h : DropsDir d i t t') (htree : Tree root t) : Tree root t' := by
  have hiroot : i ≠ root := by
    grind [htree.target, h.refers, htree.apart, h.dir]
  have hrefers : ∀ e x, t'.Refers e x → e ∈ t.dirs ∧ e ≠ i ∧ t.Refers e x := by
    intro e x href
    obtain ⟨he, hpos⟩ := refers_iff.mp href
    rw [h.dirs_eq] at he
    obtain ⟨hei, he⟩ := Finset.mem_erase.mp he
    refine ⟨he, hei, refers_iff.mpr ⟨he, ?_⟩⟩
    rw [h.count_eq he hei]
    omega
  -- the slot of `d` was the only one that referred to `i`
  have hnone : ∀ e, ¬ t'.Refers e i := by
    intro e href
    obtain ⟨he, hei, href'⟩ := hrefers e i href
    have hpos := (refers_iff.mp href).2
    obtain hfile | ⟨-, -, hparent⟩ := htree.target e i href'
    · exact htree.apart i hfile h.dir
    obtain hfile | ⟨-, -, hparent'⟩ := htree.target d i h.refers
    · exact htree.apart i hfile h.dir
    have hed : e = d := hparent.symm.trans hparent'
    have honce := htree.once d h.mem i h.dir
    rw [h.slots_parent, if_pos rfl] at honce
    rw [hed] at hpos
    omega
  refine ⟨?_, ?_, ?_, fun e x href => ?_, fun e he x hx => ?_, fun e he => ?_⟩
  · rw [h.dirs_eq]
    exact Finset.mem_erase.mpr ⟨hiroot.symm, htree.root_mem⟩
  · rw [h.parent_eq root htree.root_mem hiroot.symm]
    exact htree.parent_root
  · rw [h.files_eq, h.dirs_eq]
    exact fun x hx hmem => htree.apart x hx (Finset.mem_of_mem_erase hmem)
  · grind [h.files_eq, h.dirs_eq, htree.target, h.parent_eq]
  · rw [h.dirs_eq] at he hx
    obtain ⟨hei, he⟩ := Finset.mem_erase.mp he
    have honce := htree.once e he x (Finset.mem_of_mem_erase hx)
    rw [h.count_eq he hei] at honce
    omega
  · rw [h.dirs_eq] at he
    have hway : ∀ e, Relation.ReflTransGen t.Refers root e → e ≠ i →
        Relation.ReflTransGen t'.Refers root e := by
      intro e hreach
      induction hreach with
      | refl => exact fun _ => .refl
      | @tail b c _ hlast ih =>
        intro hci
        obtain ⟨hb, hpos⟩ := refers_iff.mp hlast
        have hbi : b ≠ i := by
          rintro rfl
          rw [h.empty] at hpos
          exact Nat.lt_irrefl 0 hpos
        refine (ih hbi).tail (refers_iff.mpr ⟨?_, ?_⟩)
        · rw [h.dirs_eq]
          exact Finset.mem_erase.mpr ⟨hbi, hb⟩
        · rw [h.count_eq hb hbi, if_neg fun hc => hci hc.2.symm] at hpos
          exact hpos
    exact hway e (htree.reach e (Finset.mem_of_mem_erase he)) (Finset.ne_of_mem_erase he)

end DropsDir

end LinkTable

end Xv6.Lib
