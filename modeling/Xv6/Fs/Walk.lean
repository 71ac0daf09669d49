/-
# Following a path

What a path stands for in a table of nodes, and that `namex` finds it: it returns a
reference to the inode the path stands for, or nothing if there is none, holds no lock when
it returns, and leaves the nodes as they are but for unlinked ones that nobody refers to any
more.
-/

import Xv6.Fs.Managed

namespace Xv6.Fs

open Xv6.Lib

/-- What the elements of a path stand for, starting from inode `i`: an inode, or with `parent`
the directory the last element is to be looked up in, and that element. -/
def resolve (N : ℕ → Option Node) (parent : Bool) :
    List (List UInt8) → ℕ → Option (ℕ × List UInt8)
  | [], i => if parent then none else some (i, [])
  | name :: rest, i =>
    match N i with
    | none => none
    | some nd =>
      if nd.type ≠ T_DIR then none
      else if parent ∧ rest = [] then some (i, name)
      else
        match lookup nd.data name with
        | none => none
        | some (next, _) => resolve N parent rest next

theorem resolve_cons {N : ℕ → Option Node} {parent : Bool} {name : List UInt8}
    {rest : List (List UInt8)} {i : ℕ} {nd : Node} (hi : N i = some nd) (hdir : nd.type = T_DIR) :
    resolve N parent (name :: rest) i =
      if parent ∧ rest = [] then some (i, name)
      else
        match lookup nd.data name with
        | none => none
        | some (next, _) => resolve N parent rest next := by
  rw [resolve, hi]
  exact if_neg (not_not.mpr hdir)

/-- Where a path starts. -/
def startOf (cwd : ℕ) (path : List UInt8) : ℕ := if path.head? = some slash then ROOTINO else cwd

/-- Every node of `N'` is there in `N`, with the same type and contents. -/
def Alike (N N' : ℕ → Option Node) : Prop :=
  ∀ i nd', N' i = some nd' → ∃ nd, N i = some nd ∧ nd.type = nd'.type ∧ nd.data = nd'.data

variable {E : Panic → Prop} {sb : Superblock} {dev : Devsw} {s s' : State} {δ : ℕ → ℕ}
  {k l : Fin NINODE} {i : ℕ} {name : List UInt8} {names : List (List UInt8)}
  {N N' N'' : ℕ → Option Node} {parent : Bool} {p : ℕ × List UInt8}

theorem Alike.trans (h : Alike N N') (h' : Alike N' N'') : Alike N N'' := by
  intro i nd'' hi
  obtain ⟨nd', hi', htype', hdata'⟩ := h' i nd'' hi
  obtain ⟨nd, hi, htype, hdata⟩ := h i nd' hi'
  exact ⟨nd, hi, htype.trans htype', hdata.trans hdata'⟩

theorem Drops.alike (h : Drops N N') : Alike N N' :=
  fun _ nd hi => ⟨nd, h.eq_of_some hi, rfl, rfl⟩

namespace Calm

/-- The node of a locked inode. -/
theorem node_eq (hc : Calm E sb δ s) (hlocked : s.Locked k) :
    sb.node s.disk (s.icache k).inum = some ((s.icache k).copy.toNode s.disk) :=
  hc.wf.node_eq hlocked.1 hlocked.2.2

/-- What an entry of a directory names. -/
theorem of_lookup (hc : Calm E sb δ s) (hlocked : s.Locked k)
    (hdir : (s.icache k).copy.type = T_DIR) {off : ℕ}
    (h : lookup (s.dataOf k) name = some (i, off)) :
    i < sb.ninodes ∧ (E .noType ∨ ∃ nd, sb.node s.disk i = some nd) := by
  have hnode := hc.node_eq hlocked
  obtain ⟨j, e, hget, -, hinum, hne, -⟩ := lookup_mem h
  have hmem : e ∈ entries ((s.icache k).copy.toNode s.disk).data := List.mem_of_getElem? hget
  constructor
  · rw [← hinum]
    exact hc.inRange _ _ hnode hdir e hmem
  · refine hc.arranged.imp_right fun ha => ?_
    obtain ⟨nd, hnd, -⟩ := ha.1.closed hnode hdir hmem (hinum ▸ hne)
    exact ⟨nd, hinum ▸ hnd⟩

end Calm

/-- What `dirlookup` in the directory in entry `k` returns, and leaves. -/
structure LookedUp (E : Panic → Prop) (sb : Superblock) (δ : ℕ → ℕ) (s : State)
    (k : Fin NINODE) (name : List UInt8) (r : Option (Fin NINODE × ℕ) × State) : Prop where
  dir : (s.icache k).copy.type = T_DIR
  whole : lookup (s.dataOf k) name = none → State.Whole (s.dataOf k)
  finds : State.Finds s (lookup (s.dataOf k) name) r
  calm : Calm E sb δ r.2
  locks_eq : r.2.locks = s.locks
  keeps : Keeps sb 0 s r.2
  moves : Moves (gain r.1) s r.2

theorem State.dirlookup_calm (hc : Calm E sb δ s) (hE : Lax E) (hlocked : s.Locked k) :
    Ends E (s.dirlookup sb dev k name) (LookedUp E sb δ s k name) := by
  refine ((State.dirlookup_ends hc.wf hE hlocked).and (State.dirlookup_moves name)).mono
    fun r hr => ?_
  obtain ⟨⟨hdir, hwhole, hfinds⟩, hmoves⟩ := hr
  cases hlookup : lookup (s.dataOf k) name with
  | none =>
    rw [hlookup] at hfinds
    obtain rfl : r = (none, s) := hfinds
    exact ⟨hdir, hwhole, hlookup ▸ rfl, hc, rfl, Keeps.refl s, hmoves⟩
  | some found =>
    obtain ⟨i, off⟩ := found
    obtain ⟨hlt, hlive⟩ := hc.of_lookup hlocked hdir hlookup
    have hfinds' := hfinds
    rw [hlookup] at hfinds'
    obtain ⟨l, -, hgot⟩ := hfinds'
    exact ⟨hdir, hwhole, hfinds, hc.of_disk (hc.got hgot hlt hlive) hgot.disk_eq, hgot.locks_eq,
      hgot.keeps, hmoves⟩

/-- The entry `dirlookup` returns is still in use when the directory has been released, even if
it is that of the directory itself. -/
theorem LookedUp.survives {ip : Fin NINODE} {off : ℕ} {locks : Fin NINODE → Bool} {s₁ s₂ : State}
    (h : LookedUp E sb δ s k name (some (ip, off), s₁)) (hk : 0 < (s.icache k).ref)
    (hl : Left E sb δ s₁ k locks s₂) : ∃ i, lookup (s.dataOf k) name = some (i, off) ∧
      (s₂.icache ip).inum = i ∧ 0 < (s₂.icache ip).ref := by
  obtain ⟨i, hlookup, hgot⟩ := h.finds.of_some
  have hmore : single k ip < (s₁.icache ip).ref := by
    have href := (moves_got hgot).ref_eq ip
    grind [single_apply]
  exact ⟨i, hlookup, ((hl.keeps.kept ip hmore).1).trans hgot.inum, hl.ref_pos hmore⟩

/-- What a lookup of a path that has the references `h` in hand leaves, and that the entry it
returns is that of the inode the path stands for, or none. The path stands for that in any
table of nodes that is like the present one, or has more nodes: every directory the lookup has
gone through is there. -/
structure Walked (E : Panic → Prop) (sb : Superblock) (δ : ℕ → ℕ) (h : Fin NINODE → ℤ)
    (s : State) (find : (ℕ → Option Node) → Option (ℕ × List UInt8))
    (r : Option (Fin NINODE × List UInt8) × State) : Prop where
  calm : Calm E sb δ r.2
  locks_eq : r.2.locks = noLocks
  keeps : Keeps sb h s r.2
  moves : Moves (gain r.1 - h) s r.2
  find_eq : ∀ N, Alike N (sb.node s.disk) →
    find N = r.1.map fun q => ((r.2.icache q.1).inum, q.2)

/-- Locking the directory a path goes through. -/
theorem State.namexLoop_calm (hE : Lax E) (names : List (List UInt8)) (hc : Calm E sb δ s)
    (hk : 0 < (s.icache k).ref) (hfree : s.locks = noLocks) :
    Ends E (State.namexLoop sb dev parent names s k) (Walked E sb δ (single k) s
      fun N => resolve N parent names (s.icache k).inum) := by
  induction names generalizing s k with
  | nil =>
    unfold State.namexLoop
    refine .ite (fun hparent => ?_) fun hparent => ?_
    · refine .bind (State.iput_calm hc hE hk (.inr (congrFun hfree k))) fun s₁ h₁ => .pure ?_
      exact ⟨h₁.calm, h₁.locks_eq.trans hfree, h₁.keeps, h₁.moves.congr (zero_sub _).symm,
        fun _ _ => if_pos hparent⟩
    · exact .pure ⟨hc, hfree, Keeps.refl s, (Moves.refl s).congr (sub_self _).symm,
        fun _ _ => if_neg hparent⟩
  | cons name rest ih =>
    unfold State.namexLoop
    refine .bind (State.ilock_calm hc hE hk (.inr (congrFun hfree k))) fun s₁ h₁ => ?_
    obtain ⟨hc₁, hlock⟩ := h₁
    have hlocks₁ := hlock.oneLock hfree
    have hnode := hlock.node_eq hc₁.wf
    -- the directory in any such table
    have hthere : ∀ N, Alike N (sb.node s.disk) → ∃ nd, N (s.icache k).inum = some nd ∧
        nd.type = (s₁.icache k).copy.type ∧ nd.data = s₁.dataOf k := fun N ha => ha _ _ hnode
    refine .ite (fun hfile => ?_) fun hdir => .ite (fun hlast => ?_) fun hlast => ?_
    · refine .bind (State.iunlockput_calm hc₁ hE) fun s₂ h₂ => .pure ?_
      have hlocks₂ := h₂.locks_eq
      rw [hlocks₁, update_oneLock] at hlocks₂
      refine ⟨h₂.calm, hlocks₂,
        hlock.keeps.trans hlock.moves ((add_zero (single k)).symm ▸ h₂.keeps),
        (hlock.moves.after h₂.moves).congr (zero_sub _).symm, fun N ha => ?_⟩
      obtain ⟨nd, hnd, htype, -⟩ := hthere N ha
      rw [resolve, hnd]
      exact if_pos (htype ▸ hfile)
    · refine .bind (State.iunlock_calm hc₁ hE) fun s₂ h₂ => .pure ?_
      obtain ⟨hc₂, hu⟩ := h₂
      have hlocks₂ := hu.locks_eq
      rw [hlocks₁, update_oneLock] at hlocks₂
      refine ⟨hc₂, hlocks₂, hlock.keeps.trans hlock.moves hu.keeps,
        (hlock.moves.after hu.moves).congr (sub_self _).symm, fun N ha => ?_⟩
      obtain ⟨nd, hnd, htype, -⟩ := hthere N ha
      have hinum : (s₂.icache k).inum = (s.icache k).inum := by
        rw [hu.eq, icache_setInode_self, hlock.icache_eq]
      rw [resolve_cons hnd (htype.trans (not_not.mp hdir)), if_pos hlast, Option.map_some, hinum]
    · refine .bind (State.dirlookup_calm hc₁ hE hlock.locked) fun r₂ h₂ => ?_
      obtain ⟨found, s₂⟩ := r₂
      refine .bind (State.iunlockput_calm h₂.calm hE) fun s₃ h₃ => ?_
      obtain ⟨hc₃, hlocks₃, hkeeps₃, hmoves₃⟩ := id h₃
      obtain ⟨-, -, -, -, hlocks₂, hkeeps₂, hmoves₂⟩ := id h₂
      dsimp only at hlocks₂ hlocks₃ hkeeps₂ hmoves₂ hkeeps₃ hmoves₃ ⊢
      rw [hlocks₂, hlocks₁, update_oneLock] at hlocks₃
      have hmoves₁₂ := hlock.moves.after hmoves₂
      have hkeeps₁₂ : Keeps sb 0 s s₂ :=
        hlock.keeps.trans hlock.moves ((add_zero (0 : Fin NINODE → ℤ)).symm ▸ hkeeps₂)
      have hkeeps₁₃ : Keeps sb (single k) s s₃ := by
        refine (hkeeps₁₂.mono (single_nonneg k)).trans hmoves₁₂ (hkeeps₃.mono fun l => ?_)
        rw [Pi.add_apply]
        exact le_add_of_nonneg_right (gain_nonneg found l)
      have hmoves₁₃ : Moves (gain found - single k) s s₃ :=
        (hmoves₁₂.trans hmoves₃).congr (sub_eq_add_neg _ _).symm
      cases found with
      | none =>
        refine .pure ⟨hc₃, hlocks₃, hkeeps₁₃, hmoves₁₃, fun N ha => ?_⟩
        obtain ⟨nd, hnd, htype, hdata⟩ := hthere N ha
        rw [resolve_cons hnd (htype.trans (not_not.mp hdir)), if_neg hlast, hdata,
          h₂.finds.of_none.1]
        rfl
      | some q =>
        obtain ⟨ip, off⟩ := q
        obtain ⟨i, hlookup, hinum, hpos⟩ := h₂.survives hlock.locked.1 h₃
        refine (ih hc₃ hpos hlocks₃).mono fun r hr => ?_
        obtain ⟨hc₄, hlocks₄, hkeeps₄, hmoves₄, hfind⟩ := hr
        refine ⟨hc₄, hlocks₄, hkeeps₁₃.trans hmoves₁₃ (hkeeps₄.mono fun l => ?_),
          (hmoves₁₃.trans hmoves₄).congr ?_, fun N ha => ?_⟩
        · change single ip l ≤ single k l + (single ip l - single k l)
          exact (add_sub_cancel _ _).ge
        · change single ip - single k + (gain r.1 - single ip) = gain r.1 - single k
          abel
        · obtain ⟨nd, hnd, htype, hdata⟩ := hthere N ha
          have hnext := hfind N (ha.trans hkeeps₁₃.drops.alike)
          rw [hinum] at hnext
          rw [resolve_cons hnd (htype.trans (not_not.mp hdir)), if_neg hlast, hdata, hlookup]
          exact hnext

/-- The inode `namex` starts from. -/
theorem State.namexStart_calm (hE : Lax E) (hc : Calm E sb δ s) (path : List UInt8)
    (hk : 0 < (s.icache k).ref) :
    Ends E (s.namexStart k path) fun r => (Calm E sb δ r.2 ∧ r.2.locks = s.locks ∧
      Keeps sb 0 s r.2 ∧ (r.2.icache r.1).inum = startOf (s.icache k).inum path) ∧
      Moves (single r.1) s r.2 := by
  refine Ends.and ?_ (State.namexStart_moves path hk)
  unfold State.namexStart startOf
  refine .ite (fun hslash => ?_) fun hslash => ?_
  · refine (State.iget_ends (.inl (hE.allows Panic.noConfusion Panic.noConfusion
      Panic.noConfusion Panic.noConfusion))).mono fun r hr => ?_
    exact ⟨hc.of_disk (hc.got hr hc.root_lt hc.root) hr.disk_eq, hr.locks_eq, hr.keeps,
      hr.inum.trans (if_pos hslash).symm⟩
  · refine .pure ⟨hc.of_disk (hc.idup hk) rfl, State.locks_idup, State.idup_keeps, ?_⟩
    rw [if_neg hslash]
    have hkeeps : Keeps sb 0 s (s.idup k) := State.idup_keeps
    exact (hkeeps.kept_pos hk).1

/-- `namex` returns what the path stands for. -/
theorem State.namex_calm (hE : Lax E) (hc : Calm E sb δ s) (path : List UInt8)
    (hk : 0 < (s.icache k).ref) (hfree : s.locks = noLocks) :
    Ends E (s.namex sb dev k path parent) (Walked E sb δ 0 s fun N =>
      resolve N parent (elements path) (startOf (s.icache k).inum path)) := by
  unfold State.namex
  refine .bind (State.namexStart_calm hE hc path hk) fun r₁ h₁ => ?_
  obtain ⟨l, s₁⟩ := r₁
  obtain ⟨⟨hc₁, hlocks₁, hkeeps₁, hinum⟩, hmoves₁⟩ := h₁
  dsimp only at hc₁ hlocks₁ hkeeps₁ hinum hmoves₁ ⊢
  refine (State.namexLoop_calm hE _ hc₁ hmoves₁.pos_single (hlocks₁.trans hfree)).mono
    fun r hr => ?_
  obtain ⟨hc₂, hlocks₂, hkeeps₂, hmoves₂, hfind⟩ := hr
  refine ⟨hc₂, hlocks₂, hkeeps₁.trans hmoves₁ ((zero_add (single l)).symm ▸ hkeeps₂),
    (hmoves₁.trans hmoves₂).congr (by abel), fun N ha => ?_⟩
  rw [← hinum]
  exact hfind N (ha.trans hkeeps₁.drops.alike)

end Xv6.Fs
