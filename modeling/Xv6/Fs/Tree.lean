/-
# The directory tree of a disk

A disk is arranged if its directories form a tree below the root, each with its first two
entries naming itself and its parent, and if the link count of every inode is the number of
entries that name it, the entries "." apart. While a system call runs the count of an inode
may be ahead of its entries; `δ` says by how much.

The lemmas say what the changes of the system calls do: freeing inodes without links,
changing a link count, writing and erasing an entry, and adding and removing a directory.
-/

import Xv6.Lib.LinkTree
import Xv6.Fs.Cache
import Xv6.Fs.Lookup

namespace Xv6.Fs

open Function Xv6.Lib

/-- What an entry refers to. -/
def Dirent.target (e : Dirent) : Option ℕ := if e.inum = 0 then none else some e.inum

/-- The entries of inode `i` if it is a directory. -/
def dirEntries (N : ℕ → Option Node) (i : ℕ) : List Dirent :=
  match N i with
  | some nd => if nd.type = T_DIR then entries nd.data else []
  | none => []

/-- Directories, files and what the entries of the directories refer to. -/
def table (n : ℕ) (N : ℕ → Option Node) : LinkTable ℕ where
  dirs := (Finset.range n).filter fun i => (N i).any fun nd => nd.type = T_DIR
  files := (Finset.range n).filter fun i => (N i).any fun nd => nd.type ≠ T_DIR
  slots i := ((dirEntries N i).drop 2).map Dirent.target
  parent i := ((dirEntries N i)[1]?.map Dirent.inum).getD 0

/-- The entries of directory `i`. -/
structure Shape (i : ℕ) (es : List Dirent) : Prop where
  self : ∃ e, es[0]? = some e ∧ e.inum = i ∧ namecmp e.name dot = 0
  parent : ∃ e, es[1]? = some e ∧ namecmp e.name dotdot = 0
  rest : ∀ e ∈ es.drop 2, e.inum ≠ 0 → namecmp e.name dot ≠ 0 ∧ namecmp e.name dotdot ≠ 0

/-- The tree, with link counts that are ahead by `δ`. -/
structure Arranged (n : ℕ) (δ : ℕ → ℕ) (N : ℕ → Option Node) : Prop where
  bound : ∀ i nd, N i = some nd → i < n
  small : n ≤ 2 ^ 16
  zero : N 0 = none
  shape : ∀ i nd, N i = some nd → nd.type = T_DIR →
    State.Whole nd.data ∧ Shape i (entries nd.data)
  tree : (table n N).Tree ROOTINO
  nlink : ∀ i nd, N i = some nd → nd.nlink.toNat = (table n N).links i + δ i

variable {n i d j : ℕ} {N N' : ℕ → Option Node} {nd : Node} {δ δ' : ℕ → ℕ} {e : Dirent}
  {name : List UInt8}

theorem Dirent.target_eq_some : e.target = some i ↔ e.inum = i ∧ i ≠ 0 := by
  unfold Dirent.target
  grind

theorem mem_dirs : i ∈ (table n N).dirs ↔ i < n ∧ ∃ nd, N i = some nd ∧ nd.type = T_DIR := by
  unfold table
  rw [Finset.mem_filter, Finset.mem_range]
  cases N i <;> simp

theorem mem_files : i ∈ (table n N).files ↔ i < n ∧ ∃ nd, N i = some nd ∧ nd.type ≠ T_DIR := by
  unfold table
  rw [Finset.mem_filter, Finset.mem_range]
  cases N i <;> simp

theorem dirEntries_of_dir (h : N i = some nd) (hdir : nd.type = T_DIR) :
    dirEntries N i = entries nd.data := by
  unfold dirEntries
  rw [h]
  exact if_pos hdir

/-- The parent of a directory is in its second entry. -/
theorem table_parent (h : N i = some nd) (hdir : nd.type = T_DIR)
    (he : (entries nd.data)[1]? = some e) : (table n N).parent i = e.inum := by
  unfold table
  dsimp only
  rw [dirEntries_of_dir h hdir, he]
  rfl

/-- The table depends on types and contents only. -/
theorem table_congr (h : ∀ i, (N' i).map (fun nd => (nd.type, nd.data)) =
    (N i).map fun nd => (nd.type, nd.data)) : table n N' = table n N := by
  have hentries : dirEntries N' = dirEntries N := by
    funext i
    have hi := h i
    unfold dirEntries
    grind
  have hany : ∀ (p : UInt16 → Bool) i, (N' i).any (fun nd => p nd.type) =
      (N i).any fun nd => p nd.type := by
    intro p i
    have hi := h i
    cases hN : N i <;> cases hN' : N' i <;> rw [hN, hN'] at hi
    · cases hi
    · cases hi
    · obtain ⟨htype, -⟩ := Prod.mk.inj (Option.some.inj hi)
      simp only [Option.any_some, htype]
  unfold table
  rw [hentries]
  congr 1
  · exact Finset.filter_congr fun i _ => by rw [hany fun t => t = T_DIR]
  · exact Finset.filter_congr fun i _ => by rw [hany fun t => t ≠ T_DIR]

namespace Arranged

theorem dir_mem (h : Arranged n δ N) (hi : N i = some nd) (hdir : nd.type = T_DIR) :
    i ∈ (table n N).dirs :=
  mem_dirs.mpr ⟨h.bound i nd hi, nd, hi, hdir⟩

/-- An inode with a link in the tree has a link count. -/
theorem of_links (h : Arranged n δ N) (hpos : 0 < (table n N).links i) :
    ∃ nd, N i = some nd ∧ nd.nlink ≠ 0 := by
  obtain ⟨nd, hi⟩ : ∃ nd, N i = some nd := by
    rcases h.tree.mem_of_links hpos with hfile | hdir
    · obtain ⟨-, nd, hi, -⟩ := mem_files.mp hfile
      exact ⟨nd, hi⟩
    · obtain ⟨-, nd, hi, -⟩ := mem_dirs.mp hdir
      exact ⟨nd, hi⟩
  refine ⟨nd, hi, fun hz => ?_⟩
  have hnlink := h.nlink i nd hi
  rw [hz, UInt16.toNat_zero] at hnlink
  omega

theorem nlink_ne_of_dir (h : Arranged n δ N) (hi : N i = some nd) (hdir : nd.type = T_DIR) :
    nd.nlink ≠ 0 := by
  obtain ⟨nd', hi', hne⟩ := h.of_links (h.tree.links_pos (h.dir_mem hi hdir))
  rw [hi] at hi'
  exact Option.some.inj hi' ▸ hne

/-- No entry dangles, and what it names has a link count. -/
theorem closed (h : Arranged n δ N) (hi : N i = some nd) (hdir : nd.type = T_DIR)
    (he : e ∈ entries nd.data) (hne : e.inum ≠ 0) :
    ∃ nd', N e.inum = some nd' ∧ nd'.nlink ≠ 0 := by
  have hmem := h.dir_mem hi hdir
  obtain ⟨-, ⟨e₀, he₀, hself, -⟩, ⟨e₁, he₁, -⟩, -⟩ := h.shape i nd hi hdir
  obtain ⟨j, hj, hget⟩ := List.getElem_of_mem he
  have hj? : (entries nd.data)[j]? = some e := by rw [List.getElem?_eq_getElem hj, hget]
  match j, hj, hj? with
  | 0, _, hj? =>
    rw [he₀] at hj?
    rw [← Option.some.inj hj?, hself]
    exact ⟨nd, hi, h.nlink_ne_of_dir hi hdir⟩
  | 1, _, hj? =>
    rw [← table_parent hi hdir hj?]
    exact h.of_links (LinkTable.Tree.links_pos_of_parent hmem)
  | j + 2, _, hj? =>
    refine h.of_links (LinkTable.Tree.links_pos_of_refers ⟨hmem, ?_⟩)
    unfold table
    dsimp only
    rw [dirEntries_of_dir hi hdir]
    refine List.mem_map.mpr ⟨e, ?_, Dirent.target_eq_some.mpr ⟨rfl, hne⟩⟩
    exact List.mem_of_getElem? (i := j) (by rw [List.getElem?_drop, Nat.add_comm]; exact hj?)

end Arranged

/-- Some inodes without links have been freed. -/
def Drops (N N' : ℕ → Option Node) : Prop :=
  ∀ i, N' i = N i ∨ N' i = none ∧ ∃ nd, N i = some nd ∧ nd.nlink = 0

theorem Drops.refl (N : ℕ → Option Node) : Drops N N := fun _ => .inl rfl

theorem Drops.trans {N'' : ℕ → Option Node} (h : Drops N N') (h' : Drops N' N'') :
    Drops N N'' := by
  intro i
  rcases h' i with heq' | ⟨hnone', nd, hnd, hz⟩
  · rcases h i with heq | hdrop
    · exact .inl (heq'.trans heq)
    · exact .inr ⟨heq'.trans hdrop.1, hdrop.2⟩
  · rcases h i with heq | ⟨hnone, -⟩
    · exact .inr ⟨hnone', nd, heq.symm.trans hnd, hz⟩
    · rw [hnone] at hnd
      cases hnd

theorem Drops.eq_of_some (h : Drops N N') (hi : N' i = some nd) : N i = some nd := by
  rcases h i with heq | ⟨hnone, -⟩
  · exact heq.symm.trans hi
  · rw [hnone] at hi
    cases hi

theorem Drops.eq_of_ne (h : Drops N N') (hi : N i = some nd) (hne : nd.nlink ≠ 0) :
    N' i = some nd := by
  rcases h i with heq | ⟨-, nd', hnd', hz⟩
  · exact heq.trans hi
  · rw [hi] at hnd'
    exact (hne (Option.some.inj hnd' ▸ hz)).elim

theorem Arranged.drops (h : Arranged n δ N) (hd : Drops N N') : Arranged n δ N' := by
  have hsame : ∀ i ∈ (table n N).dirs, N' i = N i := by
    intro i hi
    obtain ⟨-, nd, hnd, hdir⟩ := mem_dirs.mp hi
    rw [hd.eq_of_ne hnd (h.nlink_ne_of_dir hnd hdir), hnd]
  have hdirs : (table n N').dirs = (table n N).dirs := by
    ext i
    constructor
    · intro hi
      obtain ⟨hlt, nd, hnd, hdir⟩ := mem_dirs.mp hi
      exact mem_dirs.mpr ⟨hlt, nd, hd.eq_of_some hnd, hdir⟩
    · intro hi
      obtain ⟨hlt, nd, hnd, hdir⟩ := mem_dirs.mp hi
      exact mem_dirs.mpr ⟨hlt, nd, (hsame i hi).trans hnd, hdir⟩
  have hsameDirs : LinkTable.SameDirs (table n N) (table n N') := by
    refine ⟨hdirs, fun d hmem => ?_, fun d hmem => ?_⟩ <;>
      simp only [table, dirEntries, hsame d hmem]
  refine ⟨fun i nd hi => h.bound i nd (hd.eq_of_some hi), h.small, ?_,
    fun i nd hi => h.shape i nd (hd.eq_of_some hi), ?_, fun i nd hi => ?_⟩
  · rcases hd 0 with heq | hdrop
    · exact heq.trans h.zero
    · exact hdrop.1
  · refine hsameDirs.tree h.tree (fun i hi => ?_) fun i hi hpos => ?_
    · obtain ⟨hlt, nd, hnd, hfile⟩ := mem_files.mp hi
      exact h.tree.apart i (mem_files.mpr ⟨hlt, nd, hd.eq_of_some hnd, hfile⟩)
    · obtain ⟨hlt, nd, hnd, hfile⟩ := mem_files.mp hi
      obtain ⟨nd', hnd', hne⟩ := h.of_links hpos
      rw [hnd] at hnd'
      exact mem_files.mpr ⟨hlt, nd, hd.eq_of_ne hnd (Option.some.inj hnd' ▸ hne), hfile⟩
  · rw [hsameDirs.links_eq]
    exact h.nlink i nd (hd.eq_of_some hi)

/-- Another table in which the nodes that are not those of before are in order. -/
theorem Arranged.of_table (h : Arranged n δ N) (hzero : N' 0 = none)
    (htree : (table n N').Tree ROOTINO)
    (hnodes : ∀ x nd, N' x = some nd →
      N x = some nd ∧ (table n N).links x + δ x = (table n N').links x + δ' x ∨
      x < n ∧ (nd.type = T_DIR → State.Whole nd.data ∧ Shape x (entries nd.data)) ∧
        nd.nlink.toNat = (table n N').links x + δ' x) : Arranged n δ' N' := by
  refine ⟨fun x nd hx => ?_, h.small, hzero, fun x nd hx hdir => ?_, htree, fun x nd hx => ?_⟩
  · exact (hnodes x nd hx).elim (fun hold => h.bound x nd hold.1) And.left
  · exact (hnodes x nd hx).elim (fun hold => h.shape x nd hold.1 hdir) fun hnew => hnew.2.1 hdir
  · grind [h.nlink]

/-- One node is another one. -/
theorem Arranged.putNode {nd' : Node} (h : Arranged n δ N) (hlt : i < n) (hpos : i ≠ 0)
    (hshape : nd'.type = T_DIR → State.Whole nd'.data ∧ Shape i (entries nd'.data))
    (htree : (table n (update N i (some nd'))).Tree ROOTINO)
    (hself : nd'.nlink.toNat = (table n (update N i (some nd'))).links i + δ' i)
    (hothers : ∀ x ≠ i, (table n N).links x + δ x =
      (table n (update N i (some nd'))).links x + δ' x) :
    Arranged n δ' (update N i (some nd')) := by
  refine h.of_table ?_ htree fun x nd hx => ?_
  · rw [update_of_ne hpos.symm, h.zero]
  · grind

theorem Arranged.ne_zero (h : Arranged n δ N) (hi : N i = some nd) : i ≠ 0 := by
  rintro rfl
  rw [h.zero] at hi
  cases hi

/-- Another node with the same type and contents. -/
theorem Arranged.setNode {nd' : Node} (h : Arranged n δ N) (hi : N i = some nd)
    (htype : nd'.type = nd.type) (hdata : nd'.data = nd.data)
    (hnlink : nd'.nlink.toNat = (table n N).links i + δ' i) (hδ : ∀ x ≠ i, δ' x = δ x) :
    Arranged n δ' (update N i (some nd')) := by
  have htable : table n (update N i (some nd')) = table n N := by
    grind [table_congr]
  refine h.putNode (h.bound i nd hi) (h.ne_zero hi) (fun hdir => ?_) ?_ ?_ fun x hx => ?_
  · rw [hdata]
    exact h.shape i nd hi (htype ▸ hdir)
  · rw [htable]
    exact h.tree
  · rw [htable]
    exact hnlink
  · rw [htable, hδ x hx]

theorem whole_splice {data src : List UInt8} (h : State.Whole data)
    (hj : j ≤ (entries data).length) (hsrc : src.length = DIRENT) :
    State.Whole (splice data (DIRENT * j) src) ∧
      entries (splice data (DIRENT * j) src) = putAt (entries data) j (Dirent.ofBytes src) := by
  have hentries : entries (splice data (DIRENT * j) src) = _ :=
    entries_splice h.ge (hj.lt_or_eq.imp_right fun heq => ⟨heq, h⟩) hsrc
  refine ⟨?_, hentries⟩
  have hlen : data.length = DIRENT * (entries data).length := h
  have hle : DIRENT * j ≤ DIRENT * (entries data).length := Nat.mul_le_mul_left _ hj
  unfold State.Whole
  rw [hentries, length_putAt hj, splice, List.length_append, List.length_append, List.length_take,
    List.length_drop, hsrc]
  rcases hj.lt_or_eq with hlt | heq
  · have hlt' : DIRENT * (j + 1) ≤ DIRENT * (entries data).length := Nat.mul_le_mul_left _ hlt
    rw [Nat.mul_succ] at hlt'
    rw [max_eq_left (Nat.succ_le_of_lt hlt)]
    omega
  · rw [← heq, max_eq_right (Nat.le_succ j), Nat.mul_succ]
    rw [← heq] at hlen
    omega

theorem Shape.putAt {es : List Dirent} (h : Shape i es) (hj : 2 ≤ j) (hlen : j ≤ es.length)
    (hname : e.inum ≠ 0 → namecmp e.name dot ≠ 0 ∧ namecmp e.name dotdot ≠ 0) :
    Shape i (putAt es j e) := by
  refine ⟨?_, ?_, fun e' he' hne => ?_⟩
  · rw [getElem?_putAt_of_lt (by omega) hlen]
    exact h.self
  · rw [getElem?_putAt_of_lt (by omega) hlen]
    exact h.parent
  · grind [drop_putAt, mem_putAt, h.rest]

section SetEntry

variable {nd' : Node} (hd : N d = some nd) (hdir : nd.type = T_DIR) (hd' : N' d = some nd')
  (hdir' : nd'.type = T_DIR) (hes : entries nd'.data = putAt (entries nd.data) j e) (hj : 2 ≤ j)
  (hlen : j ≤ (entries nd.data).length)

include hd hdir hd' hdir' hes hj hlen

/-- The slots of the directory, with one of them changed. -/
theorem slots_setEntry :
    (table n N').slots d = putAt ((table n N).slots d) (j - 2) e.target := by
  unfold table
  dsimp only
  rw [dirEntries_of_dir hd' hdir', dirEntries_of_dir hd hdir, hes, drop_putAt hj hlen, map_putAt]

theorem parent_setEntry : (table n N').parent d = (table n N).parent d := by
  unfold table
  dsimp only
  rw [dirEntries_of_dir hd' hdir', dirEntries_of_dir hd hdir, hes,
    getElem?_putAt_of_lt (by omega) hlen]

/-- What the change does to the number of slots that refer to an inode. -/
theorem count_setEntry (x : ℕ) : ((table n N').slots d).count (some x) +
      (if (entries nd.data)[j]?.bind Dirent.target = some x then 1 else 0) =
    ((table n N).slots d).count (some x) + if e.target = some x then 1 else 0 := by
  have hcount := count_putAt (l := (table n N).slots d) (a := j - 2) (v := e.target) (some x)
  have hold : ((table n N).slots d)[j - 2]? = some (some x) ↔
      (entries nd.data)[j]?.bind Dirent.target = some x := by
    unfold table
    dsimp only
    rw [dirEntries_of_dir hd hdir, List.getElem?_map, List.getElem?_drop, Nat.add_sub_cancel' hj]
    cases (entries nd.data)[j]? <;> simp
  rw [← slots_setEntry hd hdir hd' hdir' hes hj hlen, if_congr (beq_iff_eq.trans hold) rfl rfl,
    if_congr beq_iff_eq rfl rfl] at hcount
  exact hcount

theorem reslots_setEntry (hlt : d < n) (hother : ∀ x ≠ d, N' x = N x) :
    LinkTable.Reslots d (table n N) (table n N') := by
  have hmap : ∀ (p : UInt16 → Bool) (x : ℕ), (N' x).any (fun nd => p nd.type) =
      (N x).any fun nd => p nd.type := by
    grind
  refine ⟨mem_dirs.mpr ⟨hlt, nd, hd, hdir⟩, ?_, ?_, fun x _ hx => ?_, fun x _ => ?_⟩
  · exact Finset.filter_congr fun x _ => by rw [hmap fun t => t = T_DIR]
  · exact Finset.filter_congr fun x _ => by rw [hmap fun t => t ≠ T_DIR]
  · simp only [table, dirEntries, hother x hx]
  · by_cases hx : x = d
    · rw [hx]
      exact parent_setEntry hd hdir hd' hdir' hes hj hlen
    · simp only [table, dirEntries, hother x hx]

end SetEntry

/-- An entry in directory `d` is changed that names no directory, before and after. -/
theorem Arranged.setEntry {src : List UInt8} (h : Arranged n δ N) (hd : N d = some nd)
    (hdir : nd.type = T_DIR) (hj : 2 ≤ j) (hlen : j ≤ (entries nd.data).length)
    (hsrc : src.length = DIRENT) (he : Dirent.ofBytes src = e)
    (hname : e.inum ≠ 0 → namecmp e.name dot ≠ 0 ∧ namecmp e.name dotdot ≠ 0)
    (hold : ∀ x, (entries nd.data)[j]?.bind Dirent.target = some x → x ∉ (table n N).dirs)
    (hnew : ∀ x, e.target = some x → x ∈ (table n N).files)
    (hδ : ∀ x, δ x + (if (entries nd.data)[j]?.bind Dirent.target = some x then 1 else 0) =
      δ' x + if e.target = some x then 1 else 0) :
    Arranged n δ' (update N d
      (some { nd with data := splice nd.data (DIRENT * j) src })) := by
  obtain ⟨hwhole, hshape⟩ := h.shape d nd hd hdir
  obtain ⟨hwhole', hes⟩ := whole_splice hwhole hlen hsrc
  rw [he] at hes
  have hlt := h.bound d nd hd
  obtain ⟨nd', hnd'⟩ : ∃ nd', { nd with data := splice nd.data (DIRENT * j) src } = nd' := ⟨_, rfl⟩
  have hdir' : nd'.type = T_DIR := hnd' ▸ hdir
  have hes' : entries nd'.data = putAt (entries nd.data) j e := hnd' ▸ hes
  rw [hnd']
  have hd' : update N d (some nd') d = some nd' := update_self ..
  have hreslots := reslots_setEntry hd hdir hd' hdir' hes' hj hlen hlt
    fun x hx => update_of_ne hx ..
  have hcount := count_setEntry (n := n) hd hdir hd' hdir' hes' hj hlen
  have hbalance : ∀ x, (table n N).links x + δ x =
      (table n (update N d (some nd'))).links x + δ' x := by
    intro x
    have := hreslots.links_eq x
    have := hcount x
    have := hδ x
    omega
  refine h.putNode hlt (h.ne_zero hd) (fun _ => ?_) ?_ ?_ fun x _ => hbalance x
  · rw [← hnd']
    exact ⟨hwhole', hes ▸ hshape.putAt hj hlen hname⟩
  · refine hreslots.tree h.tree (fun x hx => ?_) fun x hx => ?_
    · grind [h.tree.apart]
    · rw [slots_setEntry hd hdir hd' hdir' hes' hj hlen] at hx
      rcases mem_putAt hx with heq | hmem
      · exact .inl (hnew x heq.symm)
      · exact (h.tree.target d x ⟨h.dir_mem hd hdir, hmem⟩).imp_right And.left
  · rw [← hbalance, ← hnd']
    exact h.nlink d nd hd

/-! ## New and removed inodes -/

/-- A new inode that is no directory. -/
theorem Arranged.newFile (h : Arranged n δ N) (hi : N i = none) (hlt : i < n) (hpos : i ≠ 0)
    (hfile : nd.type ≠ T_DIR) (hnlink : nd.nlink.toNat = δ' i) (hδ : ∀ x ≠ i, δ' x = δ x) :
    Arranged n δ' (update N i (some nd)) := by
  have hentries : dirEntries (update N i (some nd)) = dirEntries N := by
    funext x
    unfold dirEntries
    grind
  have hdirs : (table n (update N i (some nd))).dirs = (table n N).dirs := by
    grind [mem_dirs]
  have hsame : LinkTable.SameDirs (table n N) (table n (update N i (some nd))) := by
    refine ⟨hdirs, fun x _ => ?_, fun x _ => ?_⟩ <;> simp only [table, hentries]
  have hzero : (table n N).links i = 0 := by
    by_contra hne
    obtain ⟨nd', hnd', -⟩ := h.of_links (Nat.pos_of_ne_zero hne)
    rw [hi] at hnd'
    cases hnd'
  refine h.putNode hlt hpos (fun hdir => (hfile hdir).elim) ?_ ?_ fun x hx => ?_
  · refine hsame.tree h.tree (fun x hx hdir => ?_) fun x hx _ => ?_
    · rw [← hdirs] at hdir
      obtain ⟨-, nd₁, hnd₁, hfile₁⟩ := mem_files.mp hx
      obtain ⟨-, nd₂, hnd₂, hdir₂⟩ := mem_dirs.mp hdir
      rw [hnd₁] at hnd₂
      exact hfile₁ (Option.some.inj hnd₂ ▸ hdir₂)
    · obtain ⟨hxn, nd', hnd', hfile'⟩ := mem_files.mp hx
      have hxi : x ≠ i := by
        rintro rfl
        rw [hi] at hnd'
        cases hnd'
      refine mem_files.mpr ⟨hxn, nd', ?_, hfile'⟩
      rw [update_of_ne hxi]
      exact hnd'
  · rw [hsame.links_eq, hzero, Nat.zero_add]
    exact hnlink
  · rw [hsame.links_eq, hδ x hx]

/-- What is in no entry has no links. -/
theorem Arranged.links_eq_zero (h : Arranged n δ N) (hi : N i = none) :
    (table n N).links i = 0 := by
  by_contra hne
  obtain ⟨nd, hnd, -⟩ := h.of_links (Nat.pos_of_ne_zero hne)
  rw [hi] at hnd
  cases hnd

/-- Where two tables differ in directories only. -/
theorem files_eq_of_dirs
    (h : ∀ x, N' x = N x ∨ (∀ nd, N x = some nd → nd.type = T_DIR) ∧
      ∀ nd, N' x = some nd → nd.type = T_DIR) : (table n N').files = (table n N).files := by
  grind [mem_files]

section Directories

variable {nd' ndi : Node} (h : Arranged n δ N) (hd : N d = some nd) (hdir : nd.type = T_DIR)
  (hd' : N' d = some nd') (hdir' : nd'.type = T_DIR)
  (hes : entries nd'.data = putAt (entries nd.data) j e) (hj : 2 ≤ j)
  (hlen : j ≤ (entries nd.data).length) (hother : ∀ x, x ≠ i → x ≠ d → N' x = N x)

include h hd hdir hd' hdir' hes hj hlen hother

/-- The directory `i` is new, in the entry `j` of `d`. -/
theorem addsDir (hinum : e.inum = i) (hfree : (entries nd.data)[j]?.bind Dirent.target = none)
    (hi : N i = none) (hi' : N' i = some ndi) (hlt : i < n) (hpos : i ≠ 0)
    (hdiri : ndi.type = T_DIR) {e₀ e₁ : Dirent} (hentries : entries ndi.data = [e₀, e₁])
    (he₁ : e₁.inum = d) : LinkTable.AddsDir d i (table n N) (table n N') := by
  have hne : ∀ x, ∀ nd₁, N x = some nd₁ → x ≠ i := by
    rintro x nd₁ hx rfl
    rw [hi] at hx
    cases hx
  have hdlt := h.bound d nd hd
  refine ⟨h.dir_mem hd hdir, ⟨fun hmem => ?_, fun hmem => ?_⟩, ?_, ?_, fun x => ?_, ?_,
    fun x => ?_, fun x hx hxd => ?_, fun x hx => ?_⟩
  · obtain ⟨-, nd₁, hnd₁, -⟩ := mem_files.mp hmem
    exact hne i nd₁ hnd₁ rfl
  · obtain ⟨-, nd₁, hnd₁, -⟩ := mem_dirs.mp hmem
    exact hne i nd₁ hnd₁ rfl
  · grind [mem_dirs]
  · grind [files_eq_of_dirs]
  · simp [table, dirEntries_of_dir, hi', hdiri, hentries]
  · unfold table
    dsimp only
    rw [dirEntries_of_dir hi' hdiri, hentries]
    exact he₁
  · have hcount := count_setEntry (n := n) hd hdir hd' hdir' hes hj hlen x
    grind [Dirent.target_eq_some]
  · obtain ⟨-, nd₁, hnd₁, -⟩ := mem_dirs.mp hx
    simp only [table, dirEntries, hother x (hne x nd₁ hnd₁) hxd]
  · obtain ⟨-, nd₁, hnd₁, -⟩ := mem_dirs.mp hx
    by_cases hxd : x = d
    · rw [hxd]
      exact parent_setEntry hd hdir hd' hdir' hes hj hlen
    · simp only [table, dirEntries, hother x (hne x nd₁ hnd₁) hxd]

/-- The directory `i`, which had no entries but the first two, is gone from the entry `j` of
`d`. -/
theorem dropsDir (hzero : e.inum = 0) (hold : (entries nd.data)[j]?.bind Dirent.target = some i)
    (hi : N i = some ndi) (hdiri : ndi.type = T_DIR) (hi' : N' i = none) (hdi : d ≠ i)
    (hempty : ∀ e ∈ (entries ndi.data).drop 2, e.inum = 0) :
    LinkTable.DropsDir d i (table n N) (table n N') := by
  have hdlt := h.bound d nd hd
  have hcount : ∀ x, ((table n N).slots d).count (some x) =
      ((table n N').slots d).count (some x) + if i = x then 1 else 0 := by
    intro x
    have hcount := count_setEntry (n := n) hd hdir hd' hdir' hes hj hlen x
    have hnew : ¬ e.target = some x := fun htarget => by
      obtain ⟨hinum, hne⟩ := Dirent.target_eq_some.mp htarget
      exact hne (hinum ▸ hzero)
    grind
  refine ⟨h.dir_mem hd hdir, h.dir_mem hi hdiri, ?_, fun x => ?_, ?_, ?_, hcount,
    fun x hx hxd hxi => ?_, fun x hx hxi => ?_⟩
  · refine LinkTable.refers_iff.mpr ⟨h.dir_mem hd hdir, ?_⟩
    rw [hcount, if_pos rfl]
    exact Nat.succ_pos _
  · refine List.count_eq_zero.mpr fun hmem => ?_
    unfold table at hmem
    dsimp only at hmem
    rw [dirEntries_of_dir hi hdiri] at hmem
    obtain ⟨e', he', htarget⟩ := List.mem_map.mp hmem
    obtain ⟨hinum, hne⟩ := Dirent.target_eq_some.mp htarget
    exact hne (hinum ▸ hempty e' he')
  · grind [mem_dirs]
  · refine files_eq_of_dirs fun x => ?_
    by_cases hxi : x = i
    · subst hxi
      rw [hi, hi']
      refine .inr ⟨fun nd₁ hnd₁ => Option.some.inj hnd₁ ▸ hdiri, fun nd₁ hnd₁ => ?_⟩
      cases hnd₁
    · by_cases hxd : x = d
      · subst hxd
        rw [hd, hd']
        exact .inr ⟨fun nd₁ hnd₁ => Option.some.inj hnd₁ ▸ hdir,
          fun nd₁ hnd₁ => Option.some.inj hnd₁ ▸ hdir'⟩
      · exact .inl (hother x hxi hxd)
  · simp only [table, dirEntries, hother x hxi hxd]
  · by_cases hxd : x = d
    · rw [hxd]
      exact parent_setEntry hd hdir hd' hdir' hes hj hlen
    · simp only [table, dirEntries, hother x hxi hxd]

end Directories

/-- A new directory `i` in the directory `d`, with its two entries. -/
theorem Arranged.newDir {src : List UInt8} {ndi : Node} {e₀ e₁ : Dirent}
    (h : Arranged n δ N) (hd : N d = some nd) (hdir : nd.type = T_DIR) (hj : 2 ≤ j)
    (hlen : j ≤ (entries nd.data).length)
    (hfree : (entries nd.data)[j]?.bind Dirent.target = none)
    (hsrc : src.length = DIRENT) (hinum : (Dirent.ofBytes src).inum = i)
    (hname : namecmp (Dirent.ofBytes src).name dot ≠ 0 ∧
      namecmp (Dirent.ofBytes src).name dotdot ≠ 0)
    (hroom : nd.nlink.toNat + 1 < 2 ^ 16) (hi : N i = none) (hlt : i < n) (hpos : i ≠ 0)
    (hdiri : ndi.type = T_DIR) (hwholei : State.Whole ndi.data)
    (hentries : entries ndi.data = [e₀, e₁]) (he₀ : e₀.inum = i ∧ namecmp e₀.name dot = 0)
    (he₁ : e₁.inum = d ∧ namecmp e₁.name dotdot = 0) (hnlink : ndi.nlink = 1) (hδ : δ i = 0) :
    Arranged n δ (update (update N d (some { nd with
      nlink := nd.nlink + 1, data := splice nd.data (DIRENT * j) src })) i (some ndi)) := by
  obtain ⟨hwhole, hshape⟩ := h.shape d nd hd hdir
  obtain ⟨hwhole', hes⟩ := whole_splice hwhole hlen hsrc
  obtain ⟨nd', hnd'⟩ : ∃ nd', { nd with
    nlink := nd.nlink + 1, data := splice nd.data (DIRENT * j) src } = nd' := ⟨_, rfl⟩
  have hdir' : nd'.type = T_DIR := hnd' ▸ hdir
  have hes' : entries nd'.data = putAt (entries nd.data) j (Dirent.ofBytes src) := hnd' ▸ hes
  have hdi : d ≠ i := by
    rintro rfl
    rw [hi] at hd
    cases hd
  rw [hnd']
  obtain ⟨N', hN'⟩ : ∃ N', update (update N d (some nd')) i (some ndi) = N' :=
    ⟨_, rfl⟩
  have hatI : N' i = some ndi := by rw [← hN', update_self]
  have hatD : N' d = some nd' := by
    rw [← hN', update_of_ne hdi, update_self]
  have hother : ∀ x, x ≠ i → x ≠ d → N' x = N x := by
    intro x hxi hxd
    rw [← hN', update_of_ne hxi, update_of_ne hxd]
  have hadds := addsDir h hd hdir hatD hdir' hes' hj hlen hother hinum hfree hi hatI hlt hpos
    hdiri hentries he₁.1
  rw [hN']
  refine h.of_table ?_ (hadds.tree h.tree) fun x ndx hx => ?_
  · rw [hother 0 hpos.symm (h.ne_zero hd).symm, h.zero]
  have hlinks := hadds.links_eq x
  by_cases hxi : x = i
  · subst hxi
    rw [hatI] at hx
    obtain rfl := Option.some.inj hx
    refine .inr ⟨hlt, fun _ => ⟨hwholei, ?_⟩, ?_⟩
    · rw [hentries]
      refine ⟨⟨e₀, rfl, he₀⟩, ⟨e₁, rfl, he₁.2⟩, fun e he => ?_⟩
      cases he
    · rw [hlinks, hnlink, h.links_eq_zero hi, hδ, if_pos rfl, if_neg hdi]
      rfl
  · rw [if_neg (Ne.symm hxi)] at hlinks
    by_cases hxd : x = d
    · subst hxd
      rw [hatD] at hx
      obtain rfl := Option.some.inj hx
      refine .inr ⟨h.bound x nd hd, fun _ => ⟨?_, ?_⟩, ?_⟩
      · rw [← hnd']
        exact hwhole'
      · rw [hes']
        exact hshape.putAt hj hlen fun _ => hname
      · grind [h.nlink, UInt16.toNat_add]
    · rw [if_neg (Ne.symm hxd)] at hlinks
      exact .inl ⟨(hother x hxi hxd).symm.trans hx, by omega⟩

/-- The directory `i` without entries but the first two is removed from the directory `d`. -/
theorem Arranged.removeDir {src : List UInt8} {ndi : Node} (h : Arranged n δ N)
    (hd : N d = some nd) (hdir : nd.type = T_DIR) (hj : 2 ≤ j)
    (hlen : j ≤ (entries nd.data).length)
    (hold : (entries nd.data)[j]?.bind Dirent.target = some i)
    (hsrc : src.length = DIRENT) (hinum : (Dirent.ofBytes src).inum = 0)
    (hi : N i = some ndi) (hdiri : ndi.type = T_DIR)
    (hempty : ∀ e ∈ (entries ndi.data).drop 2, e.inum = 0) :
    Arranged n δ (update (update N d (some { nd with
      nlink := nd.nlink - 1, data := splice nd.data (DIRENT * j) src })) i none) ∧
    (table n N).links i = 1 := by
  obtain ⟨hwhole, hshape⟩ := h.shape d nd hd hdir
  obtain ⟨hwhole', hes⟩ := whole_splice hwhole hlen hsrc
  obtain ⟨nd', hnd'⟩ : ∃ nd', { nd with
    nlink := nd.nlink - 1, data := splice nd.data (DIRENT * j) src } = nd' := ⟨_, rfl⟩
  have hdir' : nd'.type = T_DIR := hnd' ▸ hdir
  have hes' : entries nd'.data = putAt (entries nd.data) j (Dirent.ofBytes src) := hnd' ▸ hes
  have hdi : d ≠ i := by
    rintro rfl
    rw [hd] at hi
    obtain rfl := Option.some.inj hi
    obtain ⟨e, he, htarget⟩ := Option.bind_eq_some_iff.mp hold
    obtain ⟨hinum, hne⟩ := Dirent.target_eq_some.mp htarget
    refine hne (hinum ▸ hempty e ?_)
    refine List.mem_of_getElem? (i := j - 2) ?_
    rw [List.getElem?_drop, Nat.add_sub_cancel' hj, he]
  rw [hnd']
  obtain ⟨N', hN'⟩ : ∃ N', update (update N d (some nd')) i none = N' :=
    ⟨_, rfl⟩
  have hatI : N' i = none := by rw [← hN', update_self]
  have hatD : N' d = some nd' := by
    rw [← hN', update_of_ne hdi, update_self]
  have hother : ∀ x, x ≠ i → x ≠ d → N' x = N x := by
    intro x hxi hxd
    rw [← hN', update_of_ne hxi, update_of_ne hxd]
  have hdrops := dropsDir h hd hdir hatD hdir' hes' hj hlen hother hinum hold hi hdiri hatI hdi
    hempty
  rw [hN']
  refine ⟨?_, ?_⟩
  rotate_left
  · have hlinks := hdrops.links_eq h.tree i
    have hzero : (table n N').links i = 0 := by
      by_contra hne
      rcases (hdrops.tree h.tree).mem_of_links (Nat.pos_of_ne_zero hne) with hfile | hmem
      · obtain ⟨-, nd₁, hnd₁, -⟩ := mem_files.mp hfile
        rw [hatI] at hnd₁
        cases hnd₁
      · obtain ⟨-, nd₁, hnd₁, -⟩ := mem_dirs.mp hmem
        rw [hatI] at hnd₁
        cases hnd₁
    rw [hlinks, hzero, if_pos rfl, if_neg hdi]
  refine h.of_table ?_ (hdrops.tree h.tree) fun x ndx hx => ?_
  · rw [hother 0 (h.ne_zero hi).symm (h.ne_zero hd).symm, h.zero]
  have hlinks := hdrops.links_eq h.tree x
  by_cases hxi : x = i
  · rw [hxi, hatI] at hx
    cases hx
  · rw [if_neg (Ne.symm hxi)] at hlinks
    by_cases hxd : x = d
    · subst hxd
      rw [hatD] at hx
      obtain rfl := Option.some.inj hx
      refine .inr ⟨h.bound x nd hd, fun _ => ⟨?_, ?_⟩, ?_⟩
      · rw [← hnd']
        exact hwhole'
      · rw [hes']
        exact hshape.putAt hj hlen fun hne => (hne hinum).elim
      · grind [h.nlink, UInt16.le_iff_toNat_le, UInt16.toNat_sub_of_le]
    · rw [if_neg (Ne.symm hxd)] at hlinks
      exact .inl ⟨(hother x hxi hxd).symm.trans hx, by omega⟩

/-- A directory with one more entry, as `dirlink` writes it. -/
def Node.withEntry (nd : Node) (name : List UInt8) (inum : ℕ) : Node where
  type := nd.type
  major := nd.major
  minor := nd.minor
  nlink := nd.nlink
  data := splice nd.data (DIRENT * State.freeSlot nd.data) (Dirent.toBytes ⟨inum, name⟩)

/-- A directory with the entry at `off` erased, as `sys_unlink` does it. -/
def Node.erase (nd : Node) (off : ℕ) : Node where
  type := nd.type
  major := nd.major
  minor := nd.minor
  nlink := nd.nlink
  data := splice nd.data off Dirent.empty.toBytes

theorem entries_withEntry (h : State.Whole nd.data) (name : List UInt8) (inum : ℕ) :
    State.Whole (nd.withEntry name inum).data ∧ entries (nd.withEntry name inum).data =
      putAt (entries nd.data) (State.freeSlot nd.data) (Dirent.stored ⟨inum, name⟩) := by
  have hwrite := whole_splice h State.freeSlot_le (Dirent.length_toBytes ⟨inum, name⟩)
  rw [Dirent.ofBytes_toBytes] at hwrite
  exact hwrite

theorem entries_erase (hj : j < (entries nd.data).length) :
    entries (nd.erase (DIRENT * j)).data = putAt (entries nd.data) j Dirent.empty.stored := by
  have hle : DIRENT * (entries nd.data).length ≤ nd.data.length := by
    rw [length_entries]
    exact Nat.mul_div_le _ _
  exact (entries_splice hle (.inl hj) (Dirent.length_toBytes _)).trans
    (by rw [Dirent.ofBytes_toBytes])

/-- The entry `dirlink` writes was not in use. -/
theorem freeSlot_target : (entries nd.data)[State.freeSlot nd.data]?.bind Dirent.target = none := by
  cases hget : (entries nd.data)[State.freeSlot nd.data]? with
  | none => rfl
  | some e =>
    obtain ⟨hlt, heq⟩ := List.getElem?_eq_some_iff.mp hget
    have hzero : e.inum = 0 := by
      have hfound := List.findIdx_getElem (w := hlt)
      rw [← heq]
      exact of_decide_eq_true hfound
    exact if_pos hzero

section

variable (h : Arranged n δ N) (hd : N d = some nd) (hdir : nd.type = T_DIR)

include h hd hdir

/-- The first two entries of a directory are in use. -/
theorem Arranged.two_le_freeSlot : 2 ≤ State.freeSlot nd.data := by
  obtain ⟨-, hshape⟩ := h.shape d nd hd hdir
  obtain ⟨e₀, he₀, hinum₀, -⟩ := hshape.self
  obtain ⟨e₁, he₁, -⟩ := hshape.parent
  have hne₀ : e₀.inum ≠ 0 := hinum₀ ▸ h.ne_zero hd
  have hne₁ : e₁.inum ≠ 0 := by
    obtain ⟨-, ndp, hndp, -⟩ := mem_dirs.mp (h.tree.parent_mem (h.dir_mem hd hdir))
    rw [table_parent hd hdir he₁] at hndp
    exact h.ne_zero hndp
  have hbind : (entries nd.data)[State.freeSlot nd.data]?.bind Dirent.target = none :=
    freeSlot_target
  by_contra hlt
  have hsmall : State.freeSlot nd.data = 0 ∨ State.freeSlot nd.data = 1 := by omega
  rcases hsmall with hz | hz
  · rw [hz, he₀] at hbind
    exact absurd hbind (by simp [Dirent.target, hne₀])
  · rw [hz, he₁] at hbind
    exact absurd hbind (by simp [Dirent.target, hne₁])

/-- A name that is not in a directory is neither "." nor "..". -/
theorem Arranged.name_ne (hnone : lookup nd.data name = none) :
    namecmp name dot ≠ 0 ∧ namecmp name dotdot ≠ 0 := by
  obtain ⟨-, hshape⟩ := h.shape d nd hd hdir
  have hused : ∀ j < 2, ∀ e, (entries nd.data)[j]? = some e → e.inum ≠ 0 := by
    intro j hj e he hzero
    have hle := h.two_le_freeSlot hd hdir
    obtain ⟨hlt, heq⟩ := List.getElem?_eq_some_iff.mp he
    have hnot : decide ((entries nd.data)[j].inum = 0) = false :=
      List.not_of_lt_findIdx (Nat.lt_of_lt_of_le hj hle)
    rw [heq] at hnot
    exact of_decide_eq_false hnot hzero
  have hall := lookupIn_eq_none.mp hnone
  grind [hshape.self, hshape.parent, namecmp_trans]

/-- `dirlink` of a file. -/
theorem Arranged.link {ndi : Node} (hnone : lookup nd.data name = none) (hi : N i = some ndi)
    (hfile : ndi.type ≠ T_DIR) (hδ : δ i = δ' i + 1) (hother : ∀ x ≠ i, δ x = δ' x) :
    Arranged n δ' (update N d (some (nd.withEntry name i))) := by
  have hlt := h.bound i ndi hi
  have hinum : (Dirent.stored ⟨i, name⟩).inum = i :=
    Nat.mod_eq_of_lt (Nat.lt_of_lt_of_le hlt h.small)
  have htarget : ∀ x, (Dirent.stored ⟨i, name⟩).target = some x ↔ i = x := by
    intro x
    rw [Dirent.target_eq_some, hinum]
    exact ⟨And.left, fun heq => ⟨heq, heq ▸ h.ne_zero hi⟩⟩
  have hname := h.name_ne hd hdir hnone
  refine h.setEntry hd hdir (h.two_le_freeSlot hd hdir) State.freeSlot_le
    (Dirent.length_toBytes _) (Dirent.ofBytes_toBytes _) (fun _ => ?_) (fun x hx => ?_)
    (fun x hx => ?_) fun x => ?_
  · rw [Ne, Dirent.stored, namecmp_strncpy, Ne, namecmp_strncpy]
    exact hname
  · rw [freeSlot_target] at hx
    cases hx
  · rw [htarget] at hx
    exact mem_files.mpr ⟨hx ▸ hlt, ndi, hx ▸ hi, hfile⟩
  · grind [freeSlot_target]

/-- The entry a name other than "." and ".." stands for. -/
theorem Arranged.of_lookup {off : ℕ} (hname : namecmp name dot ≠ 0 ∧ namecmp name dotdot ≠ 0)
    (hfound : lookup nd.data name = some (i, off)) : ∃ j, 2 ≤ j ∧ j < (entries nd.data).length ∧
      off = DIRENT * j ∧ (entries nd.data)[j]?.bind Dirent.target = some i := by
  obtain ⟨j, e, hget, hoff, hinum, hne, hmatch⟩ := lookupIn_eq_some hfound
  obtain ⟨-, hshape⟩ := h.shape d nd hd hdir
  obtain ⟨e₀, he₀, -, hname₀⟩ := hshape.self
  obtain ⟨e₁, he₁, hname₁⟩ := hshape.parent
  obtain ⟨hlt, -⟩ := List.getElem?_eq_some_iff.mp hget
  have htwo : 2 ≤ j := by
    grind [namecmp_eq_zero_iff]
  refine ⟨j, htwo, hlt, hoff.trans (Nat.zero_add _), ?_⟩
  rw [hget]
  exact Dirent.target_eq_some.mpr ⟨hinum, hne⟩

end

theorem Dirent.empty_inum : (Dirent.empty.stored).inum = 0 := rfl

section

variable (h : Arranged n δ N) (hd : N d = some nd) (hdir : nd.type = T_DIR)

include h hd hdir

/-- `sys_unlink` of a file, before its link count is changed. -/
theorem Arranged.unlink {ndi : Node} {off : ℕ}
    (hname : namecmp name dot ≠ 0 ∧ namecmp name dotdot ≠ 0)
    (hfound : lookup nd.data name = some (i, off)) (hi : N i = some ndi)
    (hfile : ndi.type ≠ T_DIR) (hδ : δ' i = δ i + 1) (hother : ∀ x ≠ i, δ' x = δ x) :
    Arranged n δ' (update N d (some (nd.erase off))) := by
  obtain ⟨j, hj, hlt, rfl, htarget⟩ := h.of_lookup hd hdir hname hfound
  refine h.setEntry hd hdir hj hlt.le (Dirent.length_toBytes _) (Dirent.ofBytes_toBytes _)
    (fun hne => (hne Dirent.empty_inum).elim) (fun x hx hmem => ?_) (fun x hx => ?_) fun x => ?_
  · rw [htarget] at hx
    obtain rfl := Option.some.inj hx
    obtain ⟨-, nd', hnd', hdir'⟩ := mem_dirs.mp hmem
    rw [hi] at hnd'
    exact hfile (Option.some.inj hnd' ▸ hdir')
  · obtain ⟨hinum, hne⟩ := Dirent.target_eq_some.mp hx
    exact (hne (hinum ▸ Dirent.empty_inum)).elim
  · have hnone : ¬ (Dirent.empty.stored).target = some x := fun hx => by
      obtain ⟨hinum, hne⟩ := Dirent.target_eq_some.mp hx
      exact hne (hinum ▸ Dirent.empty_inum)
    grind

/-- `mkdir`: the new directory `i` has the entries `e₀` and `e₁`. -/
theorem Arranged.mkdir {ndi : Node} {e₀ e₁ : Dirent} (hnone : lookup nd.data name = none)
    (hroom : nd.nlink.toNat + 1 < 2 ^ 16) (hi : N i = none) (hlt : i < n) (hpos : i ≠ 0)
    (hdiri : ndi.type = T_DIR) (hwholei : State.Whole ndi.data)
    (hentries : entries ndi.data = [e₀, e₁]) (he₀ : e₀.inum = i ∧ namecmp e₀.name dot = 0)
    (he₁ : e₁.inum = d ∧ namecmp e₁.name dotdot = 0) (hnlink : ndi.nlink = 1) (hδ : δ i = 0) :
    Arranged n δ (update (update N d
      (some { nd.withEntry name i with nlink := nd.nlink + 1 })) i (some ndi)) := by
  have hinum : (Dirent.ofBytes (Dirent.toBytes ⟨i, name⟩)).inum = i := by
    rw [Dirent.ofBytes_toBytes]
    exact Nat.mod_eq_of_lt (Nat.lt_of_lt_of_le hlt h.small)
  refine h.newDir hd hdir (h.two_le_freeSlot hd hdir) State.freeSlot_le freeSlot_target
    (Dirent.length_toBytes ⟨i, name⟩) hinum ?_ hroom hi hlt hpos hdiri hwholei hentries he₀ he₁
    hnlink hδ
  rw [Dirent.ofBytes_toBytes, Dirent.stored, Ne, namecmp_strncpy, Ne, namecmp_strncpy]
  exact h.name_ne hd hdir hnone

/-- `sys_unlink` of an empty directory that nobody uses. -/
theorem Arranged.rmdir {ndi : Node} {off : ℕ}
    (hname : namecmp name dot ≠ 0 ∧ namecmp name dotdot ≠ 0)
    (hfound : lookup nd.data name = some (i, off)) (hi : N i = some ndi)
    (hdiri : ndi.type = T_DIR) (hempty : ∀ e ∈ (entries ndi.data).drop 2, e.inum = 0) :
    Arranged n δ (update (update N d
      (some { nd.erase off with nlink := nd.nlink - 1 })) i none) ∧ (table n N).links i = 1 := by
  obtain ⟨j, hj, hlt, rfl, htarget⟩ := h.of_lookup hd hdir hname hfound
  refine h.removeDir hd hdir hj hlt.le htarget (Dirent.length_toBytes _) ?_ hi hdiri hempty
  rw [Dirent.ofBytes_toBytes]
  exact Dirent.empty_inum

end

end Xv6.Fs
