/-
# Entries and link counts over whole runs

A run that starts from a well-formed image, and in which no directory is removed while it is
in use and no link count overflows, keeps the directories a tree: no entry dangles, and the
link count of every inode is the number of entries that name it. Removing a directory that is
the current directory of a process breaks both.
-/

import Xv6.Fs.Idle

namespace Xv6.Fs

open Xv6.Lib Xv6.Ptable

/-- A well-formed image: the blocks are owned, the directories are a tree, and link counts are
exact and not zero. -/
structure Sound (sb : Superblock) (disk : Disk) : Prop where
  image : Image sb disk
  arranged : Arranged sb.ninodes 0 (sb.node disk)
  nlink_pos : ∀ i nd, sb.node disk i = some nd → nd.nlink ≠ 0
  nlink_lt : ∀ i nd, sb.node disk i = some nd → nd.nlink.toNat < 2 ^ 15

/-- An entry that counts as a link to inode `i`. -/
def Dirent.LinksTo (i : ℕ) (e : Dirent) : Prop := e.inum = i ∧ namecmp e.name dot ≠ 0
  deriving Decidable

/-- The entries in allocated directories that name inode `i`, without ".". -/
def linkEntries (sb : Superblock) (disk : Disk) (i : ℕ) : ℕ :=
  ∑ d ∈ Finset.range sb.ninodes, (dirEntries (sb.node disk) d).countP fun e => e.LinksTo i

/-- Directory `d` has an entry for `i`, other than "." and "..". -/
def Contains (N : ℕ → Option Node) (d i : ℕ) : Prop :=
  ∃ e ∈ dirEntries N d, e.inum = i ∧ namecmp e.name dot ≠ 0 ∧ namecmp e.name dotdot ≠ 0

variable {E : Panic → Prop} {sb : Superblock} {dev : Devsw} {s s₀ : Sys} {p : Slot}
  {cwd : Fin NINODE} {n i d : ℕ} {N : ℕ → Option Node} {δ : ℕ → ℕ} {nd : Node}
  {es : List Dirent} {disk : Disk}

theorem dot_ne_of_dotdot {name : List UInt8} (h : namecmp name dotdot = 0) :
    namecmp name dot ≠ 0 := by
  intro hdot
  rw [namecmp_eq_zero_iff] at h hdot
  have hne : strncpy dot DIRSIZ ≠ strncpy dotdot DIRSIZ := by decide
  exact hne (hdot.symm.trans h)

/-- The links from one directory are entries of it. -/
theorem Shape.countP_eq (h : Shape d es) (hi : i ≠ 0) : es.countP (fun e => e.LinksTo i) =
    ((es.drop 2).map Dirent.target).count (some i) +
      if (es[1]?.map Dirent.inum).getD 0 = i then 1 else 0 := by
  obtain ⟨e₀, he₀, -, hdot⟩ := h.self
  obtain ⟨e₁, he₁, hdotdot⟩ := h.parent
  have hrest := h.rest
  match es, he₀, he₁, hrest with
  | a :: b :: rest, he₀, he₁, hrest =>
    obtain rfl := Option.some.inj he₀
    obtain rfl := Option.some.inj he₁
    have hself : decide (a.LinksTo i) = false := decide_eq_false fun hl => hl.2 hdot
    have hparent : decide (b.LinksTo i) = decide (b.inum = i) :=
      decide_eq_decide.mpr ⟨And.left, fun hb => ⟨hb, dot_ne_of_dotdot hdotdot⟩⟩
    have hcount : rest.countP (fun e => e.LinksTo i) =
        (rest.map Dirent.target).count (some i) := by
      rw [List.count, List.countP_map]
      refine List.countP_congr fun e he => ?_
      change decide (e.LinksTo i) = true ↔ (e.target == some i) = true
      rw [decide_eq_true_eq, beq_iff_eq, Dirent.target_eq_some]
      refine ⟨fun hl => ⟨hl.1, hi⟩, fun ht => ⟨ht.1, ?_⟩⟩
      exact (hrest e he (ht.1 ▸ hi)).1
    simp [List.countP_cons, hself, hparent, hcount]

theorem dirEntries_eq_nil (h : ∀ nd, N d = some nd → nd.type ≠ T_DIR) : dirEntries N d = [] := by
  unfold dirEntries
  cases hd : N d with
  | none => rfl
  | some nd => exact if_neg (h nd hd)

/-- The links of an inode are the entries that name it. -/
theorem Arranged.links_eq (h : Arranged sb.ninodes δ (sb.node disk)) (hi : i ≠ 0) :
    (table sb.ninodes (sb.node disk)).links i = linkEntries sb disk i := by
  unfold LinkTable.links linkEntries
  have hdirs : (table sb.ninodes (sb.node disk)).dirs ⊆ Finset.range sb.ninodes :=
    Finset.filter_subset _ _
  rw [← Finset.sum_subset hdirs fun d hlt hd => ?_]
  · refine Finset.sum_congr rfl fun d hd => ?_
    obtain ⟨-, nd, hnd, hdir⟩ := mem_dirs.mp hd
    have hshape := (h.shape d nd hnd hdir).2
    rw [← dirEntries_of_dir hnd hdir] at hshape
    exact (hshape.countP_eq hi).symm
  · rw [dirEntries_eq_nil fun nd hnd hdir =>
      hd (mem_dirs.mpr ⟨Finset.mem_range.mp hlt, nd, hnd, hdir⟩)]
    rfl

/-- What a directory refers to it contains. -/
theorem Arranged.contains (h : Arranged n δ N) (href : (table n N).Refers d i) :
    Contains N d i := by
  obtain ⟨hd, hmem⟩ := href
  obtain ⟨-, nd, hnd, hdir⟩ := mem_dirs.mp hd
  obtain ⟨e, he, htarget⟩ := List.mem_map.mp hmem
  rw [dirEntries_of_dir hnd hdir] at he
  obtain ⟨hinum, hne⟩ := Dirent.target_eq_some.mp htarget
  refine ⟨e, ?_, hinum, (h.shape d nd hnd hdir).2.rest e he (hinum ▸ hne)⟩
  rw [dirEntries_of_dir hnd hdir]
  exact List.mem_of_mem_drop he

/-- An inode with a link is below the root. -/
theorem Arranged.reachable (h : Arranged n 0 N) (hi : N i = some nd) (hne : nd.nlink ≠ 0) :
    Relation.ReflTransGen (Contains N) ROOTINO i := by
  have hmono := Relation.ReflTransGen.mono (fun d i => h.contains (d := d) (i := i))
  by_cases hdir : nd.type = T_DIR
  · exact hmono _ _ (h.tree.reach i (h.dir_mem hi hdir))
  · refine hmono _ _ (h.tree.reach_of_links (mem_files.mpr ⟨h.bound i nd hi, nd, hi, hdir⟩) ?_)
    have hcount := h.nlink i nd hi
    have hpos : nd.nlink.toNat ≠ 0 := fun hz => hne (UInt16.toNat_inj.mp hz)
    rw [Pi.zero_apply] at hcount
    omega

theorem Arranged.inRange (h : Arranged n δ N) (hn : 0 < n) : InRange n N := by
  intro d nd hd hdir e he
  by_cases hz : e.inum = 0
  · rw [hz]
    exact hn
  · obtain ⟨nd', hnd', -⟩ := h.closed hd hdir he hz
    exact h.bound _ _ hnd'

theorem mem_dirEntries {e : Dirent} : e ∈ dirEntries N d ↔
    ∃ nd, N d = some nd ∧ nd.type = T_DIR ∧ e ∈ entries nd.data := by
  unfold dirEntries
  grind

/-- The failures the directories have to do with. -/
abbrev ButNoType : Panic → Prop := fun e => e ≠ .noType

theorem lax_butNoType : Lax ButNoType := fun _ _ _ h _ => h

theorem Booted.settled (hboot : Booted s) (h : Sound sb s.fs.disk) : Settled ButNoType sb s := by
  obtain ⟨hlt, nd, hroot, -⟩ := mem_dirs.mp h.arranged.tree.root_mem
  have hcached : Cached sb s.fs := by
    refine ⟨fun l hl => ?_, fun i nd hi hz => (h.nlink_pos i nd hi hz).elim⟩
    rw [hboot.eq_of_ref hl, hboot.root]
    exact ⟨nd, hroot⟩
  exact ⟨hboot.exact, ⟨⟨⟨⟨hboot.wellFormed h.image hlt, .inr hcached⟩, hlt,
    h.arranged.inRange (Nat.zero_lt_of_lt hlt), .inr ⟨h.arranged, h.nlink_lt⟩⟩,
    hboot.locks_eq, fun _ => hboot.lh_eq⟩, hboot.outstanding_eq⟩⟩

theorem Settled.arranged (h : Settled ButNoType sb s) :
    Arranged sb.ninodes 0 (sb.node s.fs.disk) :=
  (h.rests.calm.arranged.resolve_left fun hne => hne rfl).1

theorem Settled.short (h : Settled ButNoType sb s) : Short (sb.node s.fs.disk) :=
  (h.rests.calm.arranged.resolve_left fun hne => hne rfl).2

theorem Settled.cached (h : Settled ButNoType sb s) : Cached sb s.fs :=
  h.rests.calm.cached.resolve_left fun hne => hne rfl

/-- The calls in a run remove no directory in use. -/
def MildCalls (sb : Superblock) (s : Sys) (l : Slot × SysCall) : Prop :=
  ∀ cwd, s.cwd l.1 = some cwd → l.2.Mild sb s cwd

theorem settled_of_run {labels : List (Slot × SysCall)} (hboot : Booted s₀)
    (hsound : Sound sb s₀.fs.disk)
    (hrun : ((sysMachine sb dev).restrict (MildCalls sb)).Run s₀ labels s) :
    Settled ButNoType sb s :=
  hrun.invariant (hboot.settled hsound) fun _ _ hs henabled =>
    step_settled lax_butNoType hs henabled.1 (.inl Panic.noConfusion) (.inr henabled.2)

theorem shape_sample (d : ℕ) (nd : Node) (hd : sample.node sampleDisk d = some nd)
    (hdir : nd.type = T_DIR) : State.Whole nd.data ∧ Shape d (entries nd.data) := by
  have hcheck := all_nodes (P := fun d nd => nd.type = T_DIR →
    nd.data.length = DIRENT * (entries nd.data).length ∧
    ((entries nd.data)[0]?.any fun e => e.inum = d ∧ namecmp e.name dot = 0) = true ∧
    ((entries nd.data)[1]?.any fun e => namecmp e.name dotdot = 0) = true ∧
    ∀ e ∈ (entries nd.data).drop 2, e.inum ≠ 0 →
      namecmp e.name dot ≠ 0 ∧ namecmp e.name dotdot ≠ 0) (by decide +kernel) d nd hd hdir
  obtain ⟨hwhole, hself, hparent, hrest⟩ := hcheck
  obtain ⟨e₀, he₀, hdot⟩ := (Option.any_eq_true _ _).mp hself
  obtain ⟨e₁, he₁, hdotdot⟩ := (Option.any_eq_true _ _).mp hparent
  exact ⟨hwhole, ⟨e₀, he₀, of_decide_eq_true hdot⟩, ⟨e₁, he₁, of_decide_eq_true hdotdot⟩, hrest⟩

theorem tree_sample : (table 7 (sample.node sampleDisk)).Tree ROOTINO := by
  have hdirs : (table 7 (sample.node sampleDisk)).dirs = {1, 2, 3} := by decide +kernel
  have hfiles : (table 7 (sample.node sampleDisk)).files = {4} := by decide +kernel
  have hslots : (table 7 (sample.node sampleDisk)).slots 1 = [some 2, some 4] ∧
      (table 7 (sample.node sampleDisk)).slots 2 = [some 3] ∧
      (table 7 (sample.node sampleDisk)).slots 3 = [] := by decide +kernel
  have hparent : (table 7 (sample.node sampleDisk)).parent 1 = 1 ∧
      (table 7 (sample.node sampleDisk)).parent 2 = 1 ∧
      (table 7 (sample.node sampleDisk)).parent 3 = 2 := by decide +kernel
  generalize table 7 (sample.node sampleDisk) = t at hdirs hfiles hslots hparent
  obtain ⟨hslots₁, hslots₂, hslots₃⟩ := hslots
  obtain ⟨hparent₁, hparent₂, hparent₃⟩ := hparent
  have hcases : ∀ d ∈ t.dirs, d = 1 ∨ d = 2 ∨ d = 3 := by
    intro d hd
    rw [hdirs] at hd
    simpa using hd
  have hmem : 1 ∈ t.dirs ∧ 2 ∈ t.dirs ∧ 3 ∈ t.dirs := by
    rw [hdirs]
    decide
  have hroot : t.Refers 1 2 := ⟨hmem.1, by rw [hslots₁]; decide⟩
  have hsub : t.Refers 2 3 := ⟨hmem.2.1, by rw [hslots₂]; decide⟩
  refine ⟨hmem.1, hparent₁, fun i hi => ?_, fun d i hrefers => ?_, fun d hd i _ => ?_,
    fun d hd => ?_⟩
  · rw [hfiles, Finset.mem_singleton] at hi
    rw [hi, hdirs]
    decide
  · obtain ⟨hd, hi⟩ := hrefers
    rcases hcases d hd with rfl | rfl | rfl
    · rw [hslots₁] at hi
      simp only [List.mem_cons, Option.some.injEq, List.not_mem_nil, or_false] at hi
      rcases hi with rfl | rfl
      · exact .inr ⟨hmem.2.1, by decide, hparent₂⟩
      · exact .inl (by rw [hfiles]; decide)
    · rw [hslots₂] at hi
      simp only [List.mem_singleton, Option.some.injEq] at hi
      exact .inr (hi ▸ ⟨hmem.2.2, by decide, hparent₃⟩)
    · rw [hslots₃] at hi
      cases hi
  · grind
  · rcases hcases d hd with rfl | rfl | rfl
    · exact .refl
    · exact .single hroot
    · exact (Relation.ReflTransGen.single hroot).tail hsub

theorem sound_sample : Sound sample sampleDisk := by
  refine ⟨image_sample, ⟨fun i nd hi => (Superblock.node_eq_some.mp hi).1, by decide,
    if_neg (by decide +kernel), shape_sample, tree_sample, ?_⟩, ?_, ?_⟩
  · exact all_nodes (P := fun i nd => nd.nlink.toNat =
      (table 7 (sample.node sampleDisk)).links i + 0) (by decide +kernel)
  · exact all_nodes (P := fun _ nd => nd.nlink ≠ 0) (by decide +kernel)
  · exact all_nodes (P := fun _ nd => nd.nlink.toNat < 2 ^ 15) (by decide +kernel)

/-- `chdir("/a/b")`, `unlink("/a/b")` -/
def removeCwd : List (Slot × SysCall) :=
  [(0, .chdir (some [47, 97, 47, 98])), (0, .unlink (some [47, 97, 47, 98]))]

set_option maxRecDepth 10000 in
/-- A process removes its current directory `/a/b` and then `/a`. The directory it is in is
still allocated, its ".." names inode 2, which is free, and `open("..")` panics. -/
theorem dotdot_dangles : Sound sample sampleDisk ∧ ∃ s,
    (sysMachine sample {}).Run (boot sampleDisk) (removeCwd ++ [(0, .unlink (some [47, 97]))]) s ∧
    ((dirEntries (sample.node s.fs.disk) 3).any fun e => e.inum = 2) = true ∧
    (sample.dinode s.fs.disk 2).type = 0 ∧
    s.step sample {} (0, .open (some [46, 46]) false true) = .error .noType := by
  obtain ⟨s, hrun, hentry, hfree, hfails⟩ := Machine.exists_run_of_exec (sysMachine sample {})
    (removeCwd ++ [(0, .unlink (some [47, 97]))]) (s := boot sampleDisk)
    (P := fun s => ((dirEntries (sample.node s.fs.disk) 3).any fun e => e.inum = 2) = true ∧
      (sample.dinode s.fs.disk 2).type = 0 ∧
      fails (s.step sample {} (0, .open (some [46, 46]) false true)) .noType = true)
    (by decide +kernel)
  exact ⟨sound_sample, s, hrun, hentry, hfree, eq_error_of_fails hfails⟩

/-- From a well-formed image, as long as no directory is removed while it is in use and no link
count overflows, every entry of an allocated directory names an allocated inode, and no call
comes to an inode without a type. -/
theorem entries_name_allocated {labels : List (Slot × SysCall)} (hboot : Booted s₀)
    (hsound : Sound sb s₀.fs.disk)
    (hrun : ((sysMachine sb dev).restrict (MildCalls sb)).Run s₀ labels s) :
    (∀ d, ∀ e ∈ dirEntries (sb.node s.fs.disk) d, e.inum ≠ 0 →
      e.inum < sb.ninodes ∧ (sb.dinode s.fs.disk e.inum).type ≠ 0) ∧
    ∀ l, l.2.Proper s → MildCalls sb s l → s.step sb dev l ≠ .error .noType := by
  have hs := settled_of_run hboot hsound hrun
  refine ⟨fun d e he hne => ?_, fun l hproper hmild herror => ?_⟩
  · obtain ⟨nd, hd, hdir, hmem⟩ := mem_dirEntries.mp he
    obtain ⟨nd', hnd', -⟩ := hs.arranged.closed hd hdir hmem hne
    obtain ⟨hlt, htype, -⟩ := Superblock.node_eq_some.mp hnd'
    exact ⟨hlt, htype⟩
  · unfold Sys.step at herror
    cases hcwd : s.cwd l.1 with
    | none =>
      rw [hcwd] at herror
      cases herror
    | some cwd =>
      rw [hcwd] at herror
      have hends : Ends ButNoType (l.2.perform sb dev s l.1 cwd) (Settled ButNoType sb) :=
        l.2.perform_settled hs lax_butNoType hcwd hproper (.inl Panic.noConfusion)
          (.inr (hmild cwd hcwd))
      exact hends.of_error herror rfl

/-- From "/", `unlink("/a/b")` removes a directory that nobody uses. -/
theorem mild_sample : MildCalls sample (boot sampleDisk) (0, .unlink (some [47, 97, 47, 98])) := by
  intro cwd hcwd i hremoves hused
  obtain rfl : (⟨0, by decide⟩ : Fin NINODE) = cwd := Option.some.inj hcwd
  obtain ⟨d, name, off, nd, hnames, -⟩ := hremoves
  obtain ⟨-, hfound⟩ := hnames.found_eq 2 [98] (by decide +kernel)
    (show _ = some (3, 32) by decide +kernel)
  obtain ⟨rfl, -⟩ := Prod.mk.inj (Option.some.inj hfound)
  obtain ⟨l, href, hinum⟩ := hused
  rw [(booted sampleDisk).eq_of_ref href] at hinum
  cases hinum

set_option maxRecDepth 10000 in
theorem run_sample : ∃ s, ((sysMachine sample {}).restrict (MildCalls sample)).Run
    (boot sampleDisk) [(0, .unlink (some [47, 97, 47, 98]))] s ∧
    (sample.dinode s.fs.disk 3).type = 0 := by
  have henabled : (sysMachine sample {}).Enabled (boot sampleDisk)
      (0, .unlink (some [47, 97, 47, 98])) := by decide +kernel
  refine ⟨_, (Machine.Run.refl _).snoc _ ⟨henabled, mild_sample⟩, ?_⟩
  decide +kernel

/-- After `unlink("/a/b")`. -/
theorem entries_name_allocated_after_unlink : ∃ s,
    ((sysMachine sample {}).restrict (MildCalls sample)).Run (boot sampleDisk)
      [(0, .unlink (some [47, 97, 47, 98]))] s ∧ (sample.dinode s.fs.disk 3).type = 0 ∧
    ∀ d, ∀ e ∈ dirEntries (sample.node s.fs.disk) d, e.inum ≠ 0 →
      e.inum < sample.ninodes ∧ (sample.dinode s.fs.disk e.inum).type ≠ 0 := by
  obtain ⟨s, hrun, hfree⟩ := run_sample
  exact ⟨s, hrun, hfree, (entries_name_allocated (booted _) sound_sample hrun).1⟩

set_option maxRecDepth 10000 in
/-- A process removes its current directory `/a/b`. Inode 2 (`/a`) has one link then, but two
entries in allocated directories name it. -/
theorem dotdot_not_counted : Sound sample sampleDisk ∧ ∃ s,
    (sysMachine sample {}).Run (boot sampleDisk) removeCwd s ∧
    ((sample.node s.fs.disk 2).map Node.nlink) = some 1 ∧
    linkEntries sample s.fs.disk 2 = 2 := by
  obtain ⟨s, hrun, hnlink, hcount⟩ := Machine.exists_run_of_exec (sysMachine sample {})
    removeCwd (s := boot sampleDisk)
    (P := fun s => ((sample.node s.fs.disk 2).map Node.nlink) = some 1 ∧
      linkEntries sample s.fs.disk 2 = 2) (by decide +kernel)
  exact ⟨sound_sample, s, hrun, hnlink, hcount⟩

/-- From a well-formed image, as long as no directory is removed while it is in use and no link
count overflows, the link count of every inode is the number of entries that name it, "."
apart. An inode that has neither a name nor a reference is free, and every allocated inode has
a reference or is below the root. -/
theorem link_counts_exact {labels : List (Slot × SysCall)} (hboot : Booted s₀)
    (hsound : Sound sb s₀.fs.disk)
    (hrun : ((sysMachine sb dev).restrict (MildCalls sb)).Run s₀ labels s) :
    (∀ i nd, sb.node s.fs.disk i = some nd →
      nd.nlink.toNat = linkEntries sb s.fs.disk i ∧ nd.nlink.toNat < 2 ^ 15) ∧
    (∀ i, linkEntries sb s.fs.disk i = 0 → ¬ InUse s.fs i → sb.node s.fs.disk i = none) ∧
    ∀ i nd, sb.node s.fs.disk i = some nd →
      InUse s.fs i ∨ Relation.ReflTransGen (Contains (sb.node s.fs.disk)) ROOTINO i := by
  have hs := settled_of_run hboot hsound hrun
  have hcount : ∀ i nd, sb.node s.fs.disk i = some nd →
      nd.nlink.toNat = linkEntries sb s.fs.disk i := by
    intro i nd hi
    rw [← hs.arranged.links_eq (hs.arranged.ne_zero hi)]
    exact hs.arranged.nlink i nd hi
  have hanchored : ∀ i nd, sb.node s.fs.disk i = some nd → nd.nlink = 0 → InUse s.fs i := by
    intro i nd hi hz
    obtain ⟨l, href, -, hinum⟩ := hs.cached.anchored i nd hi hz
    exact ⟨l, href, hinum⟩
  refine ⟨fun i nd hi => ⟨hcount i nd hi, hs.short i nd hi⟩, fun i hzero hnot => ?_,
    fun i nd hi => ?_⟩
  · by_contra hsome
    obtain ⟨nd, hi⟩ := Option.ne_none_iff_exists'.mp hsome
    refine hnot (hanchored i nd hi (UInt16.toNat_inj.mp ?_))
    rw [hcount i nd hi, hzero]
    rfl
  · by_cases hz : nd.nlink = 0
    · exact .inl (hanchored i nd hi hz)
    · exact .inr (hs.arranged.reachable hi hz)

/-- After `unlink("/a/b")` inode 2 (`/a`) has the one link its entry gives it. -/
theorem link_counts_exact_after_unlink : ∃ s,
    ((sysMachine sample {}).restrict (MildCalls sample)).Run (boot sampleDisk)
      [(0, .unlink (some [47, 97, 47, 98]))] s ∧ (sample.dinode s.fs.disk 3).type = 0 ∧
    ∀ i nd, sample.node s.fs.disk i = some nd →
      nd.nlink.toNat = linkEntries sample s.fs.disk i ∧ nd.nlink.toNat < 2 ^ 15 := by
  obtain ⟨s, hrun, hfree⟩ := run_sample
  exact ⟨s, hrun, hfree, (link_counts_exact (booted _) sound_sample hrun).1⟩

end Xv6.Fs
