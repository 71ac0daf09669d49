/-
# link

`sys_link` counts the new link before it writes the name, and takes the link back if the name
can not be written. In between another path is followed, and entries of the cache come and go.
-/

import Xv6.Fs.Create

namespace Xv6.Fs

open Function Xv6.Lib

/-- The last element of a path is `name`, to be looked up in directory `d`, and the entry found
there, at `off`, names inode `i`. -/
def Names (N : ℕ → Option Node) (cwd : ℕ) (path : List UInt8) (d : ℕ) (name : List UInt8)
    (i off : ℕ) : Prop :=
  resolve N true (elements path) (startOf cwd path) = some (d, name) ∧
    ∃ nd, N d = some nd ∧ lookup nd.data name = some (i, off)

/-- The last element of a path names, in the directory it is looked up in, that directory. -/
def NamesParent (N : ℕ → Option Node) (cwd : ℕ) (path : List UInt8) : Prop :=
  ∃ d name off, Names N cwd path d name d off

/-- A path names an inode that is not a directory. -/
def NamesFile (N : ℕ → Option Node) (cwd : ℕ) (path : List UInt8) : Prop :=
  ∃ i nd, (resolve N false (elements path) (startOf cwd path)).map Prod.fst = some i ∧
    N i = some nd ∧ nd.type ≠ T_DIR

/-- `link` comes to a directory through its own entry: the old path names a file, so that it
gets as far as the new one, whose last element names the directory it is looked up in. -/
def LinksParent (N : ℕ → Option Node) (cwd : ℕ) (old new : List UInt8) : Prop :=
  NamesFile N cwd old ∧ NamesParent N cwd new

/-- What a system call leaves when its transaction has ended. -/
structure Ended (E : Panic → Prop) (sb : Superblock) (s : State) : Prop where
  calm : Calm E sb 0 s
  locks_eq : s.locks = noLocks
  lh_eq : s.outstanding = 0 → s.lh = []

/-- The state of the file system when no system call is running. -/
structure Rests (E : Panic → Prop) (sb : Superblock) (s : State) : Prop extends Ended E sb s where
  outstanding_eq : s.outstanding = 0

variable {E : Panic → Prop} {sb : Superblock} {dev : Devsw} {s s' : State} {δ δ' : ℕ → ℕ}
  {k l dp ip cwd : Fin NINODE} {i : ℕ} {name path : List UInt8} {N N' : ℕ → Option Node}

/-- What the path names is found by following it. -/
theorem Names.found_eq {cwd d off : ℕ} {found : Option (ℕ × ℕ)}
    (h : Names N cwd path d name i off) (d' : ℕ) (name' : List UInt8)
    (hresolve : resolve N true (elements path) (startOf cwd path) = some (d', name'))
    (hfound : ((N d').bind fun nd => lookup nd.data name') = found) :
    d = d' ∧ found = some (i, off) := by
  obtain ⟨hresolve', nd, hd, hlookup⟩ := h
  grind

/-- What `dirlookup` finds in the directory `namex` has returned is what the path names. -/
theorem Walked.names_iff {s₁ s₂ : State} {cwd d off : ℕ} {name' : List UInt8}
    (h : Walked E sb δ 0 s (fun N => resolve N true (elements path) (startOf cwd path))
      (some (dp, name), s₁)) (ha : Alike N (sb.node s.disk)) (hlock : Locks sb s₁ dp s₂)
    (hwf : WellFormed sb s₂) :
    Names N cwd path d name' i off ↔ d = (s₂.icache dp).inum ∧ name' = name ∧
      lookup (s₂.dataOf dp) name = some (i, off) := by
  have hfind := h.find_eq N ha
  obtain ⟨nd, hnd, -, hdata⟩ := (ha.trans h.keeps.drops.alike) _ _ (hlock.node_eq hwf)
  change nd.data = s₂.dataOf dp at hdata
  rw [hlock.inum_eq]
  unfold Names
  rw [hfind, Option.map_some, Option.some_inj, Prod.mk.injEq]
  constructor
  · rintro ⟨⟨rfl, rfl⟩, nd', hnd', hlookup⟩
    rw [hnd, Option.some_inj] at hnd'
    exact ⟨rfl, rfl, hdata ▸ hnd' ▸ hlookup⟩
  · rintro ⟨rfl, rfl, hlookup⟩
    exact ⟨⟨rfl, rfl⟩, nd, hnd, hdata ▸ hlookup⟩

/-- A path that `namex` does not find names nothing. -/
theorem Walked.not_names {s₁ : State} {cwd d off : ℕ}
    (h : Walked E sb δ 0 s (fun N => resolve N true (elements path) (startOf cwd path))
      (none, s₁)) (ha : Alike N (sb.node s.disk)) : ¬ Names N cwd path d name i off := by
  rintro ⟨hresolve, -⟩
  rw [h.find_eq N ha] at hresolve
  cases hresolve

/-- Only the log has changed. -/
theorem Calm.congr (hc : Calm E sb δ s) (hwf : WellFormed sb s') (hdisk : s'.disk = s.disk)
    (hicache : s'.icache = s.icache) : Calm E sb δ s' := by
  refine hc.of_disk ⟨hwf, hc.cached.imp_right fun hm => ?_⟩ hdisk
  refine ⟨fun l => ?_, fun i nd => ?_⟩
  · rw [hdisk, hicache]
    exact hm.live l
  · rw [hdisk, hicache]
    exact hm.anchored i nd

theorem Calm.ended (hc : Calm E sb 0 s) (hfree : s.locks = noLocks) : Ended E sb s.endOp :=
  ⟨hc.congr hc.wf.endOp rfl rfl, hfree, fun hz => if_pos hz⟩

/-- The end of a transaction when no other call is running. -/
theorem Calm.rests (hc : Calm E sb 0 s) (hfree : s.locks = noLocks)
    (hout : s.outstanding = 1) : Rests E sb s.endOp := by
  refine ⟨hc.ended hfree, ?_⟩
  unfold State.endOp
  dsimp only
  rw [hout]

/-- A call has begun. -/
structure Running (E : Panic → Prop) (sb : Superblock) (s s₁ : State) : Prop where
  calm : Calm E sb 0 s₁
  locks_eq : s₁.locks = noLocks
  outstanding_eq : s₁.outstanding = 1
  disk_eq : s₁.disk = s.disk
  icache_eq : s₁.icache = s.icache

theorem Rests.beginOp_eq (hr : Rests E sb s) :
    s.beginOp = .ok { s with outstanding := s.outstanding + 1 } := by
  unfold State.beginOp
  rw [hr.lh_eq hr.outstanding_eq, hr.outstanding_eq]
  rfl

theorem Rests.beginOp (hr : Rests E sb s) : Ends E s.beginOp (Running E sb s) := by
  rw [hr.beginOp_eq]
  refine .ok ⟨hr.calm.congr (hr.calm.wf.congr rfl rfl hr.calm.wf.lh_nodup) rfl rfl, hr.locks_eq,
    ?_, rfl, rfl⟩
  dsimp only
  rw [hr.outstanding_eq]

/-- The rule for a system call that is one transaction, with what else is known if it returns. -/
theorem ends_transaction_and {x : State → Except Panic State} {C : Prop} (hr : Rests E sb s)
    (hmoves : Yields (s.beginOp >>= x) (Moves 0 s))
    (h : ∀ s₁, Running E sb s s₁ → Ends E (x s₁) fun s' => Ended E sb s' ∧ C) :
    Ends E (s.beginOp >>= x) fun s' => Rests E sb s' ∧ C := by
  refine ((Ends.bind hr.beginOp h).and hmoves).mono fun s' h' => ⟨⟨h'.1.1, ?_⟩, h'.1.2⟩
  rw [h'.2.outstanding_eq]
  exact hr.outstanding_eq

theorem ends_transaction {x : State → Except Panic State} (hr : Rests E sb s)
    (hmoves : Yields (s.beginOp >>= x) (Moves 0 s))
    (h : ∀ s₁, Running E sb s s₁ → Ends E (x s₁) (Ended E sb)) :
    Ends E (s.beginOp >>= x) (Rests E sb) :=
  (ends_transaction_and hr hmoves fun s₁ h₁ => (h s₁ h₁).mono fun _ h₂ => ⟨h₂, trivial⟩).mono
    fun _ h₂ => h₂.1

/-- What `namei` leaves, and that it returns what the path stands for. -/
theorem State.namei_calm (hE : Lax E) (hc : Calm E sb δ s) (path : List UInt8)
    (hk : 0 < (s.icache k).ref) (hfree : s.locks = noLocks) :
    Ends E (s.namei sb dev k path) fun r => (Calm E sb δ r.2 ∧ r.2.locks = noLocks ∧
      Keeps sb 0 s r.2 ∧ Moves (gainOf r.1) s r.2) ∧ ∀ N, Alike N (sb.node s.disk) →
        (resolve N false (elements path) (startOf (s.icache k).inum path)).map Prod.fst =
          r.1.map fun l => (r.2.icache l).inum := by
  unfold State.namei
  refine .bind (State.namex_calm hE hc path hk hfree) fun r h => .pure ⟨?_, fun N ha => ?_⟩
  · exact ⟨h.calm, h.locks_eq, h.keeps, h.moves.congr ((sub_zero _).trans (gain_eq r.1))⟩
  · rw [h.find_eq N ha, Option.map_map, Option.map_map]
    rfl

theorem toNat_pred {n : UInt16} (h : 0 < n.toNat) : (n - 1).toNat = n.toNat - 1 :=
  UInt16.toNat_sub_of_le n 1 (UInt16.le_iff_toNat_le.mpr h)

theorem toNat_succ {n : UInt16} (h : n.toNat + 1 < 2 ^ 15) : (n + 1).toNat = n.toNat + 1 := by
  have hone : (1 : UInt16).toNat = 1 := rfl
  rw [UInt16.toNat_add, hone, Nat.mod_eq_of_lt (by omega)]

/-- A node with another link count has the same type and contents. -/
theorem Alike.setNlink {nd : Node} {n : UInt16} (hi : N i = some nd) :
    Alike N (update N i (some { nd with nlink := n })) := by
  intro x nd' hx
  grind

/-- The link count of a locked inode has been changed, to one that is `δ'` ahead. -/
theorem Changed.setNlink {n : UInt16} (hch : Changed sb s k { s.nodeAt k with nlink := n } s')
    (hk : s.Locked k) (hs : Steady E sb s') (hc : Calm E sb δ s)
    (hn : E .noType ∨ (n.toNat + δ (s.icache k).inum =
        (s.icache k).copy.nlink.toNat + δ' (s.icache k).inum ∧ n.toNat < 2 ^ 15 ∧
        ∀ x ≠ (s.icache k).inum, δ' x = δ x)) : Calm E sb δ' s' := by
  have hnode := hc.node_eq hk
  refine ⟨hs, hc.root_lt, ?_, ?_⟩
  · rw [hch.node_eq]
    exact hc.inRange.update fun hdir => hc.inRange _ (s.nodeAt k) hnode hdir
  · by_cases hE : E .noType
    · exact .inl hE
    obtain ⟨harr, hshort⟩ := hc.arranged.resolve_left hE
    obtain ⟨hcount, hlt, hother⟩ := hn.resolve_left hE
    have hold := harr.nlink _ _ hnode
    rw [hch.node_eq]
    refine .inr ⟨harr.setNode hnode rfl rfl ?_ hother, hshort.update hlt⟩
    change n.toNat = _
    change (s.icache k).copy.nlink.toNat = _ at hold
    omega

/-- One link more. -/
theorem Changed.countLink
    (hch : Changed sb s k { s.nodeAt k with nlink := (s.icache k).copy.nlink + 1 } s')
    (hk : s.Locked k) (hs : Steady E sb s') (hc : Calm E sb 0 s)
    (hroom : E .noType ∨ Roomy (sb.node s.disk)) :
    Calm E sb (Pi.single (s.icache k).inum 1) s' := by
  refine hch.setNlink hk hs hc (hroom.imp_right fun hr => ?_)
  have hlt : (s.icache k).copy.nlink.toNat + 1 < 2 ^ 15 := hr _ _ (hc.node_eq hk)
  rw [Pi.single_eq_same, toNat_succ hlt]
  exact ⟨rfl, hlt, fun x hx => Pi.single_eq_of_ne hx 1⟩

/-- And one link less. -/
theorem Changed.uncountLink
    (hch : Changed sb s k { s.nodeAt k with nlink := (s.icache k).copy.nlink - 1 } s')
    (hk : s.Locked k) (hs : Steady E sb s') (hc : Calm E sb (Pi.single (s.icache k).inum 1) s) :
    Calm E sb 0 s' := by
  refine hch.setNlink hk hs hc (hc.arranged.imp_right fun ha => ?_)
  have hnode := hc.node_eq hk
  have hcount : (s.icache k).copy.nlink.toNat = _ := ha.1.nlink _ _ hnode
  have hlt : (s.icache k).copy.nlink.toNat < 2 ^ 15 := ha.2 _ _ hnode
  rw [Pi.single_eq_same] at hcount
  have hsub := toNat_pred (n := (s.icache k).copy.nlink) (by omega)
  rw [Pi.single_eq_same, hsub]
  refine ⟨?_, by omega, fun x hx => ?_⟩
  · rw [Pi.zero_apply]
    omega
  · rw [Pi.single_eq_of_ne hx]
    rfl

/-- The name of a file has been written. -/
theorem Changed.linkFile (hch : Changed sb s dp ((s.nodeAt dp).withEntry name i) s')
    (hdp : s.Locked dp) (hc : Calm E sb (Pi.single i 1) s)
    (hdir : (s.icache dp).copy.type = T_DIR) (hnew : lookup (s.dataOf dp) name = none)
    (hwhole : State.Whole (s.dataOf dp)) (hlt : i < sb.ninodes)
    (hfile : E .noType ∨ ∃ nd, sb.node s.disk i = some nd ∧ nd.type ≠ T_DIR) : Calm E sb 0 s' := by
  have hnode := hc.node_eq hdp
  refine ⟨hch.steady hdp hc.toSteady, hc.root_lt, ?_, ?_⟩
  · rw [hch.node_eq]
    exact hc.inRange.update fun _ => lt_of_mem_withEntry hwhole (hc.inRange _ _ hnode hdir) hlt
  · by_cases hE : E .noType
    · exact .inl hE
    obtain ⟨harr, hshort⟩ := hc.arranged.resolve_left hE
    obtain ⟨nd, hi, hne⟩ := hfile.resolve_left hE
    rw [hch.node_eq]
    refine .inr ⟨harr.link hnode hdir hnew hi hne ?_ fun x hx => ?_, hshort.update ?_⟩
    · rw [Pi.single_eq_same]
      rfl
    · rw [Pi.single_eq_of_ne hx]
      rfl
    · exact hshort _ (s.nodeAt dp) hnode

/-- What `dirlink` has done for a file with a link that is not in the tree yet. It has not found
the directory itself, or it would not have returned. -/
structure LinkedFile (E : Panic → Prop) (sb : Superblock) (s : State) (dp : Fin NINODE)
    (name : List UInt8) (i : ℕ) (r : Bool × State) : Prop where
  locks_eq : r.2.locks = s.locks
  moves : Moves 0 s r.2
  apart : ∀ off, lookup (s.dataOf dp) name ≠ some ((s.icache dp).inum, off)
  done : r.1 = true → Calm E sb 0 r.2
  failed : r.1 = false → Calm E sb (Pi.single i 1) r.2 ∧ Keeps sb 0 s r.2

theorem State.dirlink_file (hc : Calm E sb (Pi.single i 1) s) (hE : Lax E) (hdp : s.Locked dp)
    (hlocks : s.locks = oneLock dp) (hlt : i < sb.ninodes)
    (hfile : E .noType ∨ ∃ nd, sb.node s.disk i = some nd ∧ nd.type ≠ T_DIR)
    (hself : E .held ∨ ∀ off, lookup (s.dataOf dp) name ≠ some ((s.icache dp).inum, off)) :
    Ends E (s.dirlink sb dev dp name i) (LinkedFile E sb s dp name i) := by
  refine ((State.dirlink_ends hc.wf hE hdp (fun hdir j off hfound =>
    (hc.of_lookup hdp hdir hfound).1) (hself.imp_right fun hne j off l s₁ hfound hgot => ?_)).and
    (State.dirlink_moves name i)).mono fun r hr => ?_
  · -- the entry found is not that of the locked directory
    have hlocked : (s₁.icache l).locked = oneLock dp l := by
      rw [← hlocks, ← hgot.locks_eq]
      rfl
    rw [hlocked]
    refine update_of_ne ?_ ..
    rintro rfl
    exact hne off (hgot.inum_eq hdp.1 ▸ hfound)
  · obtain ⟨⟨hdir, hlinked⟩, hmoves⟩ := hr
    cases hlinked with
    | found hfound hgot hput =>
      obtain ⟨hlt', hlive⟩ := hc.of_lookup hdp hdir hfound
      have hs₁ := hc.got hgot hlt' hlive
      have hkeeps := hgot.keeps.trans (moves_got hgot)
        ((zero_add (single _)).symm ▸ hput.keeps hs₁.wf hgot.ref_pos)
      have hs₂ : Steady E sb _ :=
        ⟨hput.wf, hs₁.cached.imp_right (hput.cached hs₁.wf hgot.ref_pos)⟩
      refine ⟨hput.locks_eq.trans hgot.locks_eq, hmoves, fun off' hself => ?_, fun h => ?_,
        fun _ => ⟨hc.of_drops hs₂ hkeeps.drops, hkeeps⟩⟩
      · -- it would be the entry of the directory, which is locked
        obtain ⟨rfl, -⟩ := Prod.mk.inj (Option.some.inj (hfound.symm.trans hself))
        have hentry := hc.wf.got_entry_eq hgot hdp.1 rfl
        have hlocked : s.locks dp = true := hdp.2.1
        rw [← hgot.locks_eq, ← hentry] at hlocked
        exact Bool.noConfusion (hput.unlocked.symm.trans hlocked)
      · cases h
    | written hnew hwhole hw =>
      have hch := hw.changed hdp
      refine ⟨hch.locks_eq, hmoves, fun off' hself => ?_,
        fun _ => hch.linkFile hdp hc hdir hnew hwhole hlt hfile, fun h => ?_⟩
      · rw [hnew] at hself
        cases hself
      · cases h

namespace Sys

/-- The inode `link` has found is still there, with a reference and a link of its own. -/
structure Linking (E : Panic → Prop) (sb : Superblock) (ip : Fin NINODE) (i : ℕ) (s : State) :
    Prop where
  calm : Calm E sb (Pi.single i 1) s
  inum_eq : (s.icache ip).inum = i
  ref_pos : 0 < (s.icache ip).ref
  file : E .noType ∨ ∃ nd, sb.node s.disk i = some nd ∧ nd.type ≠ T_DIR

/-- The link has been counted. -/
theorem Linking.of_unlocks {nd : Node} {s₁ : State}
    (hc : Calm E sb (Pi.single (s.icache ip).inum 1) s') (hip : s.Locked ip)
    (hch : Changed sb s ip nd s₁) (hu : Unlocks s₁ ip s') (hfile : nd.type ≠ T_DIR) :
    Linking E sb ip (s.icache ip).inum s' := by
  refine ⟨hc, ?_, hu.moves.pos (hch.locked hip).1, .inr ⟨nd, ?_, hfile⟩⟩
  · rw [hu.inum_eq, hch.inum_eq]
  · rw [hu.disk_eq, hch.node_eq, update_self]

/-- A step that keeps the entry. -/
theorem Linking.keeps {h : Fin NINODE → ℤ} (hl : Linking E sb ip i s)
    (hc : Calm E sb (Pi.single i 1) s') (hk : Keeps sb h s s') (hlt : h ip < (s.icache ip).ref)
    (hpos : 0 < (s'.icache ip).ref) : Linking E sb ip i s' := by
  have hinum := (hk.kept ip hlt).1.trans hl.inum_eq
  refine ⟨hc, hinum, hpos, ?_⟩
  by_cases hE : E .noType
  · exact .inl hE
  obtain ⟨nd, hi, hne⟩ := hl.file.resolve_left hE
  obtain ⟨nd', hi'⟩ := (hc.cached.resolve_left hE).live ip hpos
  rw [hinum] at hi'
  have hold := hk.drops.eq_of_some hi'
  rw [hi] at hold
  exact .inr ⟨nd', hi', Option.some.inj hold ▸ hne⟩

theorem linkBad_calm (hl : Linking E sb ip i s) (hE : Lax E) (hfree : s.locks = noLocks) :
    Ends E (linkBad sb s ip) (Ended E sb) := by
  unfold linkBad
  refine .bind (State.ilock_calm hl.calm hE hl.ref_pos (.inr (congrFun hfree ip))) fun s₁ h₁ => ?_
  obtain ⟨hc₁, hlock⟩ := h₁
  have hinum₁ : (s₁.icache ip).inum = i := (hlock.inum_eq ip).trans hl.inum_eq
  refine .bind (State.modify_steady (f := fun d => { d with nlink := d.nlink - 1 }) hc₁.toSteady hE
    hlock.locked ⟨rfl, rfl, rfl⟩) fun s₂ h₂ => ?_
  obtain ⟨⟨hs₂, hch⟩, -⟩ := h₂
  have hc₂ := hch.uncountLink hlock.locked hs₂ (hinum₁.symm ▸ hc₁)
  refine .bind (State.iunlockput_calm hc₂ hE) fun s₃ h₃ => .pure (h₃.calm.ended ?_)
  rw [h₃.locks_eq, hch.locks_eq, hlock.oneLock hfree, update_oneLock]

theorem linkTo_calm (hl : Linking E sb ip i s) (hE : Lax E) (hfree : s.locks = noLocks)
    (hcwd : 0 < (s.icache cwd).ref) (ha : Alike N (sb.node s.disk))
    (hself : E .held ∨ ¬ NamesParent N (s.icache cwd).inum path) :
    Ends E (linkTo sb dev s cwd ip path) fun s' =>
      Ended E sb s' ∧ ¬ NamesParent N (s.icache cwd).inum path := by
  unfold linkTo State.nameiparent
  refine .bind (State.namex_calm hE hl.calm path hcwd hfree) fun r₁ h₁ => ?_
  obtain ⟨found, s₁⟩ := r₁
  obtain ⟨hc₁, hfree₁, hkeeps₁, hmoves₁, -⟩ := id h₁
  dsimp only at hc₁ hfree₁ hkeeps₁ hmoves₁ ⊢
  rw [sub_zero] at hmoves₁
  have hpos : (0 : ℤ) < (s.icache ip).ref := Int.natCast_pos.mpr hl.ref_pos
  have hl₁ : Linking E sb ip i s₁ := hl.keeps hc₁ hkeeps₁ hpos
    (hmoves₁.pos_of_nonneg (gain_nonneg found ip) hl.ref_pos)
  cases found with
  | none =>
    refine (linkBad_calm hl₁ hE hfree₁).mono fun s' hs' => ⟨hs', ?_⟩
    rintro ⟨d, name, off, hnames⟩
    exact h₁.not_names ha hnames
  | some q =>
    obtain ⟨dp, name⟩ := q
    refine .bind (State.ilock_calm hc₁ hE hmoves₁.pos_single (.inr (congrFun hfree₁ dp)))
      fun s₂ h₂ => ?_
    obtain ⟨hc₂, hlock⟩ := h₂
    have hlocks₂ := hlock.oneLock hfree₁
    have hl₂ : Linking E sb ip i s₂ := hl₁.keeps hc₂ (hlock.keeps (h := 0))
      (Int.natCast_pos.mpr hl₁.ref_pos) (hlock.moves.pos hl₁.ref_pos)
    have hself₂ : E .held ∨ ∀ off, lookup (s₂.dataOf dp) name ≠
        some ((s₂.icache dp).inum, off) := by
      exact hself.imp_right fun hnot off hlookup => hnot
        ⟨_, name, off, (h₁.names_iff ha hlock hc₂.wf).mpr ⟨rfl, rfl, hlookup⟩⟩
    have hlt : i < sb.ninodes := hl₂.inum_eq ▸ hc₂.wf.inum_lt ip hl₂.ref_pos
    rw [hl₂.inum_eq]
    refine .bind (State.dirlink_file hc₂ hE hlock.locked hlocks₂ hlt hl₂.file hself₂)
      fun r₃ h₃ => ?_
    obtain ⟨ok, s₃⟩ := r₃
    have hnames : ¬ NamesParent N (s.icache cwd).inum path := by
      rintro ⟨d, name', off, hnames⟩
      obtain ⟨rfl, -, hlookup⟩ := (h₁.names_iff ha hlock hc₂.wf).mp hnames
      exact h₃.apart off hlookup
    have hlocks₃ : update s₃.locks dp false = noLocks := by
      rw [h₃.locks_eq, hlocks₂, update_oneLock]
    -- the reference `link` holds is there besides that to the directory
    have hmore : single dp ip < (s₃.icache ip).ref := by
      have href : ((s₃.icache ip).ref : ℤ) = (s.icache ip).ref + single dp ip :=
        ((hmoves₁.before hlock.moves).before h₃.moves).ref_eq ip
      omega
    cases ok with
    | false =>
      obtain ⟨hc₃, hkeeps₃⟩ := h₃.failed rfl
      have hl₃ : Linking E sb ip i s₃ := hl₂.keeps hc₃ hkeeps₃
        (Int.natCast_pos.mpr hl₂.ref_pos) (h₃.moves.pos hl₂.ref_pos)
      refine .bind (State.iunlockput_calm hc₃ hE) fun s₄ h₄ => ?_
      rw [if_pos rfl]
      exact (linkBad_calm (hl₃.keeps h₄.calm h₄.keeps hmore (h₄.ref_pos hmore)) hE
        (h₄.locks_eq.trans hlocks₃)).mono fun s' hs' => ⟨hs', hnames⟩
    | true =>
      refine .bind (State.iunlockput_calm (h₃.done rfl) hE) fun s₄ h₄ => ?_
      have hfree₄ : s₄.locks = noLocks := h₄.locks_eq.trans hlocks₃
      rw [if_neg Bool.noConfusion]
      refine .bind (State.iput_calm h₄.calm hE (h₄.ref_pos hmore) (.inr (congrFun hfree₄ ip)))
        fun s₅ h₅ => .pure ⟨h₅.calm.ended (h₅.locks_eq.trans hfree₄), hnames⟩

/-- If `link` returns, it has not come to a directory through its own entry. -/
theorem linkFs_calm {old new : List UInt8} (hr : Rests E sb s) (hE : Lax E)
    (hcwd : 0 < (s.icache cwd).ref) (hroom : E .noType ∨ Roomy (sb.node s.disk))
    (hself : E .held ∨ ¬ LinksParent (sb.node s.disk) (s.icache cwd).inum old new) :
    Ends E (linkFs sb dev s cwd old new) fun s' =>
      Rests E sb s' ∧ ¬ LinksParent (sb.node s.disk) (s.icache cwd).inum old new := by
  refine ends_transaction_and hr (linkFs_moves old new hcwd) fun s₁ h₁ => ?_
  rw [← h₁.icache_eq] at hcwd hself ⊢
  rw [← h₁.disk_eq] at hroom hself ⊢
  refine .bind (State.namei_calm hE h₁.calm old hcwd h₁.locks_eq) fun r₂ h₂ => ?_
  obtain ⟨found, s₂⟩ := r₂
  obtain ⟨⟨hc₂, hfree₂, hkeeps₂, hmoves₂⟩, hfind⟩ := h₂
  dsimp only at hc₂ hfree₂ hkeeps₂ hmoves₂ hfind ⊢
  have hold := hfind _ (Drops.refl (sb.node s₁.disk)).alike
  cases found with
  | none =>
    refine .pure ⟨hc₂.ended hfree₂, ?_⟩
    rintro ⟨⟨i, nd, hi, -⟩, -⟩
    rw [hold] at hi
    cases hi
  | some ip =>
    have hip₂ : 0 < (s₂.icache ip).ref := hmoves₂.pos_single
    refine .bind (State.ilock_calm hc₂ hE hip₂ (.inr (congrFun hfree₂ ip))) fun s₃ h₃ => ?_
    obtain ⟨hc₃, hlock⟩ := h₃
    have hlocks₃ := hlock.oneLock hfree₂
    have hnode₁ : sb.node s₁.disk (s₂.icache ip).inum = some (s₃.nodeAt ip) :=
      hkeeps₂.drops.eq_of_some (hlock.node_eq hc₃.wf)
    refine .ite (fun hdir => ?_) fun hfile => ?_
    · refine .bind (State.iunlockput_calm hc₃ hE) fun s₄ h₄ => .pure ⟨h₄.calm.ended ?_, ?_⟩
      · rw [h₄.locks_eq, hlocks₃, update_oneLock]
      · rintro ⟨⟨i, nd, hi, hnd, hno⟩, -⟩
        obtain rfl := Option.some.inj (hold.symm.trans hi)
        obtain rfl := Option.some.inj (hnode₁.symm.trans hnd)
        exact hno hdir
    · refine .bind (State.modify_steady (f := fun d => { d with nlink := d.nlink + 1 })
        hc₃.toSteady hE hlock.locked ⟨rfl, rfl, rfl⟩) fun s₄ h₄ => ?_
      obtain ⟨⟨hs₄, hch⟩, hmoves₄⟩ := h₄
      have hdisk₃ : Drops (sb.node s₁.disk) (sb.node s₃.disk) :=
        hkeeps₂.drops.trans (hlock.disk_eq ▸ Drops.refl _)
      have hc₄ := hch.countLink hlock.locked hs₄ hc₃ (hroom.imp_right fun hr => hr.drops hdisk₃)
      refine .bind (State.iunlock_calm hc₄ hE) fun s₅ h₅ => ?_
      obtain ⟨hc₅, hu⟩ := h₅
      have hfree₅ : s₅.locks = noLocks := by
        rw [hu.locks_eq, hch.locks_eq, hlocks₃, update_oneLock]
      have hcwd₂ := hmoves₂.pos_of_nonneg (single_nonneg ip cwd) hcwd
      have hinum₅ : (s₅.icache cwd).inum = (s₁.icache cwd).inum := by
        rw [hu.inum_eq, hch.inum_eq, hlock.inum_eq, (hkeeps₂.kept_pos hcwd).1]
      have hcwd₅ := hu.moves.pos (hmoves₄.pos (hlock.moves.pos hcwd₂))
      have ha : Alike (sb.node s₁.disk) (sb.node s₅.disk) := by
        rw [hu.disk_eq, hch.node_eq]
        exact hdisk₃.alike.trans (Alike.setNlink (hc₃.node_eq hlock.locked))
      rw [← hinum₅] at hself ⊢
      -- the old path names the file, so all depends on the new one
      refine (linkTo_calm (.of_unlocks hc₅ hlock.locked hch hu hfile) hE hfree₅ hcwd₅ ha
        (hself.imp_right fun hnot hparent => hnot ⟨?_, hparent⟩)).mono
        fun s' hs' => ⟨hs'.1, fun hlinks => hs'.2 hlinks.2⟩
      rw [hinum₅]
      exact ⟨_, _, hold, hnode₁, hfile⟩

end Sys

end Xv6.Fs
