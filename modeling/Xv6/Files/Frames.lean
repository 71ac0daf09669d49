/-
# What a call on open files leaves alone

A call changes the descriptors of one process only. It takes at most the page it is given
for a new pipe, and the pages it frees are added to those freed before. `fork` does nothing
to the pipes at all, and after `exit` no descriptor is left.
-/

import Xv6.Files.Refs

namespace Xv6.Files

open Function Xv6.Lib Xv6.Ptable

namespace State

/-- The logs have grown, by the page given for a pipe at most, and only descriptors of process
`p` have changed. -/
structure Touches (p : Slot) (page : Option Page) (s s' : State) : Prop where
  allocs : ∃ α, s'.kalloced = s.kalloced ++ α ∧ (α = [] ∨ ∃ a, page = some a ∧ α = [a])
  frees : ∃ φ, s'.kfreed = s.kfreed ++ φ
  others : ∀ q, q ≠ p → ∀ fd, s'.ofile (q, fd) = s.ofile (q, fd)

variable {s s' s'' : State} {p np q : Slot} {page : Option Page} {f : Fin NFILE}
  {fd : Fin NOFILE} {a : Page} {w : Bool}

namespace Touches

theorem refl (s : State) : Touches p page s s :=
  ⟨⟨[], (List.append_nil _).symm, .inl rfl⟩, ⟨[], (List.append_nil _).symm⟩, fun _ _ _ => rfl⟩

/-- Without a page, none is taken. -/
theorem kalloced_eq (h : Touches p none s s') : s'.kalloced = s.kalloced := by
  obtain ⟨α, hα, rfl | ⟨a, ha, -⟩⟩ := h.allocs
  · rw [hα, List.append_nil]
  · cases ha

theorem frees_trans (h : Touches p none s s') (h' : Touches p page s' s'') :
    ∃ φ, s''.kfreed = s.kfreed ++ φ := by
  grind [h.frees, h'.frees]

theorem trans (h : Touches p none s s') (h' : Touches p page s' s'') : Touches p page s s'' := by
  refine ⟨?_, h.frees_trans h', fun q hq fd => (h'.others q hq fd).trans (h.others q hq fd)⟩
  obtain ⟨α, hα, hpage⟩ := h'.allocs
  exact ⟨α, by rw [hα, h.kalloced_eq], hpage⟩

/-- After the page has been taken. -/
theorem before (h : Touches p page s s') (h' : Touches p none s' s'') : Touches p page s s'' := by
  refine ⟨?_, ?_, fun q hq fd => (h'.others q hq fd).trans (h.others q hq fd)⟩
  · obtain ⟨α, hα, hpage⟩ := h.allocs
    exact ⟨α, by rw [h'.kalloced_eq, hα], hpage⟩
  · grind [h.frees, h'.frees]

end Touches

theorem touches_setFile (f : Fin NFILE) (x : File) : Touches p page s (s.setFile f x) :=
  ⟨⟨[], (List.append_nil _).symm, .inl rfl⟩, ⟨[], (List.append_nil _).symm⟩, fun _ _ _ => rfl⟩

theorem touches_setFd (fd : Fin NOFILE) (v : Option (Fin NFILE)) :
    Touches p page s (s.setFd p fd v) := by
  refine ⟨⟨[], (List.append_nil _).symm, .inl rfl⟩, ⟨[], (List.append_nil _).symm⟩, ?_⟩
  intro q hq fd'
  exact update_of_ne (fun heq => hq (congrArg Prod.fst heq)) ..

theorem filealloc_touches : Touches p page s s.filealloc.2 := by
  rw [filealloc]
  split
  · exact touches_setFile _ _
  · exact .refl s

theorem fdalloc_touches : Touches p page s (s.fdalloc p f).2 := by
  rw [fdalloc]
  split
  · exact touches_setFd _ _
  · exact .refl s

theorem filedup_touches : Ends (fun _ => True) (s.filedup f) (Touches p page s) := by
  rw [filedup]
  exact .ite (fun _ => .error trivial) fun _ => .ok (touches_setFile _ _)

theorem pipeclose_touches : Ends (fun _ => True) (s.pipeclose a w) (Touches p page s) := by
  rw [pipeclose]
  split
  · exact .error trivial
  · apply Ends.ite
    · exact fun _ => .ok ⟨⟨[], (List.append_nil _).symm, .inl rfl⟩, ⟨[a], rfl⟩, fun _ _ _ => rfl⟩
    · exact fun _ => .ok
        ⟨⟨[], (List.append_nil _).symm, .inl rfl⟩, ⟨[], (List.append_nil _).symm⟩, fun _ _ _ => rfl⟩

theorem fileclose_touches : Ends (fun _ => True) (s.fileclose f) (Touches p page s) := by
  rw [fileclose]
  apply Ends.ite
  · exact fun _ => .error trivial
  · intro _
    apply Ends.ite
    · exact fun _ => .ok (touches_setFile _ _)
    · intro _
      cases (s.ftable f).type with
      | fdPipe => exact pipeclose_touches.mono fun s' h => (touches_setFile f _).trans h
      | fdInode => exact .ok (touches_setFile _ _)
      | fdNone => exact .ok (touches_setFile _ _)

theorem touches_makePipe (f0 f1 : Fin NFILE) (a : Page) :
    Touches p (some a) s (s.makePipe f0 f1 a) :=
  ⟨⟨[a], rfl, .inr ⟨a, rfl, rfl⟩⟩, ⟨[], (List.append_nil _).symm⟩, fun _ _ _ => rfl⟩

theorem pipealloc_touches :
    Ends (fun _ => True) (s.pipealloc page) fun r => Touches p page s r.2 := by
  rw [pipealloc]
  have h₁ : Touches p none s s.filealloc.2 := filealloc_touches
  generalize s.filealloc = r₁ at h₁ ⊢
  obtain ⟨f0, s₁⟩ := r₁
  cases f0 with
  | none => exact .ok (h₁.trans (.refl s₁))
  | some f0 =>
    dsimp only at h₁ ⊢
    have h₂ : Touches p none s₁ s₁.filealloc.2 := filealloc_touches
    generalize s₁.filealloc = r₂ at h₂ ⊢
    obtain ⟨f1, s₂⟩ := r₂
    have h₂ := h₁.trans h₂
    cases f1 with
    | none =>
      apply fileclose_touches.bind
      intro s₃ h₃
      exact .pure (h₂.trans h₃)
    | some f1 =>
      cases page with
      | none =>
        apply fileclose_touches.bind
        intro s₃ h₃
        apply fileclose_touches.bind
        intro s₄ h₄
        exact .pure ((h₂.trans h₃).trans h₄)
      | some a => exact .ok (h₂.trans (touches_makePipe f0 f1 a))

theorem sysOpen_touches (readable writable : Bool) :
    Ends (fun _ => True) (s.sysOpen p readable writable) (Touches p page s) := by
  rw [sysOpen]
  have h₁ : Touches p none s s.filealloc.2 := filealloc_touches
  generalize s.filealloc = r₁ at h₁ ⊢
  obtain ⟨f, s₁⟩ := r₁
  cases f with
  | none => exact .ok (h₁.trans (.refl s₁))
  | some f =>
    dsimp only at h₁ ⊢
    have h₂ : Touches p none s₁ (s₁.fdalloc p f).2 := fdalloc_touches
    generalize s₁.fdalloc p f = r₂ at h₂ ⊢
    obtain ⟨fd, s₂⟩ := r₂
    have h₂ := h₁.trans h₂
    cases fd with
    | none => exact fileclose_touches.mono fun s₃ h₃ => h₂.trans h₃
    | some fd => exact .ok (h₂.trans (touches_setFile _ _))

theorem sysDup_touches : Ends (fun _ => True) (s.sysDup p fd) (Touches p page s) := by
  rw [sysDup]
  cases s.ofile (p, fd) with
  | none => exact .ok (.refl s)
  | some f =>
    have h₁ : Touches p none s (s.fdalloc p f).2 := fdalloc_touches
    dsimp only
    generalize s.fdalloc p f = r₁ at h₁ ⊢
    obtain ⟨fd', s₁⟩ := r₁
    cases fd' with
    | none => exact .ok (h₁.trans (.refl s₁))
    | some fd' => exact filedup_touches.mono fun s₂ h₂ => h₁.trans h₂

theorem sysClose_touches : Ends (fun _ => True) (s.sysClose p fd) (Touches p page s) := by
  rw [sysClose]
  cases s.ofile (p, fd) with
  | none => exact .ok (.refl s)
  | some f => exact fileclose_touches.mono fun s₁ h₁ => (touches_setFd fd none).trans h₁

theorem sysPipe_touches : Ends (fun _ => True) (s.sysPipe p page) (Touches p page s) := by
  rw [sysPipe]
  apply pipealloc_touches.bind
  rintro ⟨ends, s₁⟩ h₁
  have hboth : ∀ {t : State} {rf wf : Fin NFILE}, Touches p page s t →
      Ends (fun _ => True) (do
        let t ← t.fileclose rf
        t.fileclose wf) (Touches p page s) := by
    intro t rf wf ht
    apply fileclose_touches.bind
    intro t₁ ht₁
    exact fileclose_touches.mono fun t₂ ht₂ => (ht.before ht₁).before ht₂
  cases ends with
  | none => exact .pure h₁
  | some ends =>
    obtain ⟨rf, wf⟩ := ends
    have h₂ : Touches p none s₁ (s₁.fdalloc p rf).2 := fdalloc_touches
    dsimp only at h₁ ⊢
    generalize s₁.fdalloc p rf = r₂ at h₂ ⊢
    obtain ⟨fd0, s₂⟩ := r₂
    have h₂ := h₁.before h₂
    cases fd0 with
    | none => exact hboth h₂
    | some fd0 =>
      dsimp only at h₂ ⊢
      have h₃ : Touches p none s₂ (s₂.fdalloc p wf).2 := fdalloc_touches
      generalize s₂.fdalloc p wf = r₃ at h₃ ⊢
      obtain ⟨fd1, s₃⟩ := r₃
      have h₃ := h₂.before h₃
      cases fd1 with
      | none => exact hboth (h₃.before (touches_setFd fd0 none))
      | some fd1 => exact .pure h₃

theorem fileclose_ofile : Ends (fun _ => True) (s.fileclose f) fun s' => s'.ofile = s.ofile := by
  rw [fileclose]
  apply Ends.ite
  · exact fun _ => .error trivial
  · intro _
    apply Ends.ite
    · exact fun _ => .ok rfl
    · intro _
      cases (s.ftable f).type with
      | fdPipe =>
        dsimp only
        rw [pipeclose]
        split
        · exact .error trivial
        · exact .ite (fun _ => .ok rfl) fun _ => .ok rfl
      | fdInode => exact .ok rfl
      | fdNone => exact .ok rfl

/-- `exit` clears the descriptors it looks at. -/
theorem closeAll_touches {fds : List (Fin NOFILE)} :
    Ends (fun _ => True) (closeAll p fds s) fun s' => Touches p page s s' ∧
      ∀ fd, s.ofile (p, fd) = none ∨ fd ∈ fds → s'.ofile (p, fd) = none := by
  induction fds generalizing s with
  | nil => exact .pure ⟨.refl s, fun fd hfd => hfd.resolve_right List.not_mem_nil⟩
  | cons fd rest ih =>
    rw [closeAll]
    cases hfd : s.ofile (p, fd) with
    | none =>
      grind
    | some f =>
      have hclose : Ends _ (s.fileclose f) (Touches p none s) := fileclose_touches
      apply (hclose.and fileclose_ofile).bind
      rintro s₁ ⟨h₁, hofile⟩
      apply ih.mono
      rintro s' ⟨h, hnone⟩
      refine ⟨(h₁.trans (touches_setFd fd none)).trans h, fun fd' hfd' => hnone fd' ?_⟩
      by_cases heq : fd' = fd
      · rw [heq]
        exact .inl (update_self ..)
      · rcases hfd' with hold | hmem
        · apply Or.inl
          show update s₁.ofile (p, fd) none (p, fd') = none
          rw [update_of_ne fun h => heq (congrArg Prod.snd h), hofile]
          exact hold
        · exact .inr ((List.mem_cons.mp hmem).resolve_left heq)

/-- `fork` copies descriptors to the child and leaves the pipes alone. -/
theorem dupAll_same {fds : List (Fin NOFILE)} :
    Ends (fun _ => True) (dupAll p np fds s) fun s' => s'.pipe = s.pipe ∧
      ∀ q, q ≠ np → ∀ fd, s'.ofile (q, fd) = s.ofile (q, fd) := by
  induction fds generalizing s with
  | nil => exact .pure ⟨rfl, fun _ _ _ => rfl⟩
  | cons fd rest ih =>
    rw [dupAll]
    cases s.ofile (p, fd) with
    | none => exact ih
    | some f =>
      dsimp only
      rw [filedup]
      split
      · exact .error trivial
      · apply ih.mono
        rintro s' ⟨hpipe, hofile⟩
        refine ⟨hpipe, fun q hq fd' => ?_⟩
        rw [hofile q hq fd']
        exact update_of_ne (fun heq => hq (congrArg Prod.fst heq)) ..

end State

/-- The page a call may take for a pipe. -/
def Call.page : Call → Option Page
  | .pipe _ page => page
  | .open _ _ _ | .dup _ | .close _ | .fork _ | .exit | .exec => none

open State in
/-- Every call but `fork`. -/
theorem Call.perform_touches {s : State} {p : Slot} {c : Call} (hfork : ∀ np, c ≠ .fork np) :
    Ends (fun _ => True) (c.perform s p) (Touches p c.page s) := by
  cases c with
  | «open» found readable writable =>
    cases found with
    | false => exact .ok (.refl s)
    | true => exact sysOpen_touches readable writable
  | dup fd =>
    cases fd with
    | none => exact .ok (.refl s)
    | some fd => exact sysDup_touches
  | close fd =>
    cases fd with
    | none => exact .ok (.refl s)
    | some fd => exact sysClose_touches
  | pipe arg page =>
    cases arg with
    | false => exact .ok (.refl s)
    | true => exact sysPipe_touches
  | fork np => exact absurd rfl (hfork np)
  | exit =>
    rw [Call.perform]
    exact .ite (fun _ => .error trivial) fun _ => closeAll_touches.mono fun _ h => h.1
  | exec => exact .ok (.refl s)

end Xv6.Files
