/-
# Exact references to open files and pipes

The count of an open file is the number of descriptors that refer to it, and the ends of a
pipe are open as long as there is an open file for them. Inside a call this holds up to the
references the call has in hand, which every one of its ways out gives to a descriptor or
closes again.
-/

import Xv6.Lib.Ownership
import Xv6.Files.System

namespace Xv6.Files

open Function Xv6.Lib Xv6.Ptable

/-- Whether an end of a pipe is open. -/
def Pipe.isOpen (x : Pipe) (writable : Bool) : Bool := if writable then x.writeopen else x.readopen

namespace State

/-- The end of a pipe an open file stands for. -/
def pipeEnd (s : State) (f : Fin NFILE) : Option (Page × Bool) :=
  if (s.ftable f).type = .fdPipe then some ((s.ftable f).pipe, (s.ftable f).writable) else none

/-- An end of a pipe is there and open. -/
def IsOpen (s : State) (e : Page × Bool) : Prop :=
  ∃ x, s.pipe e.1 = some x ∧ x.isOpen e.2 = true

/-- The counts are exact but for the references `δ` the running call has in hand, and the
open ends of pipes belong to one open file each. -/
structure Exact (δ : Fin NFILE → ℤ) (s : State) : Prop where
  count : ∀ f, ((s.ftable f).ref : ℤ) = refs s.ofile f + δ f
  free : ∀ f, (s.ftable f).ref = 0 → (s.ftable f).type = .fdNone
  ends : Owns (fun _ => False) (fun _ => True) s.IsOpen s.pipeEnd
  some_open : ∀ a x, s.pipe a = some x → x.readopen = true ∨ x.writeopen = true
  pages : ∀ a, s.kalloced.count a = s.kfreed.count a + if s.pipe a = none then 0 else 1

variable {s s' : State} {δ δ' : Fin NFILE → ℤ} {f g : Fin NFILE} {p np : Slot}
  {fd : Fin NOFILE} {a : Page} {w : Bool}

/-- One reference to `f`. -/
def one (f : Fin NFILE) : Fin NFILE → ℤ := slotRef (some f)

theorem one_apply (f g : Fin NFILE) : one f g = if f = g then 1 else 0 := slotRef_some f g

@[simp]
theorem ftable_setFile_self (x : File) : (s.setFile f x).ftable f = x := update_self ..

theorem ftable_setFile_of_ne {x : File} (h : g ≠ f) : (s.setFile f x).ftable g = s.ftable g :=
  update_of_ne h ..

@[simp]
theorem pipe_setPipe_self (x : Option Pipe) : (s.setPipe a x).pipe a = x :=
  update_self ..

theorem pipe_setPipe_of_ne {b : Page} {x : Option Pipe} (h : b ≠ a) :
    (s.setPipe a x).pipe b = s.pipe b :=
  update_of_ne h ..

theorem pipeEnd_setFile (x : File) : (s.setFile f x).pipeEnd = update s.pipeEnd f
    (if x.type = .fdPipe then some (x.pipe, x.writable) else none) := by
  funext g
  rw [pipeEnd]
  by_cases hg : g = f
  · subst hg
    rw [ftable_setFile_self, update_self]
  · rw [ftable_setFile_of_ne hg, update_of_ne hg]
    rfl

namespace Exact

theorem congr (h : Exact δ s) (hδ : δ = δ') : Exact δ' s := hδ ▸ h

/-- What the call has in hand is there. -/
theorem ref_pos (h : Exact δ s) (hδ : 1 ≤ δ f) : 1 ≤ (s.ftable f).ref := by
  grind [h.count, refs_eq_card]

/-- What a descriptor refers to is there. -/
theorem ref_pos_of_fd (h : Exact 0 s) (hf : s.ofile (p, fd) = some f) : 1 ≤ (s.ftable f).ref := by
  have hcount := h.count f
  have hrefs := one_le_refs hf
  rw [Pi.zero_apply, add_zero] at hcount
  omega

/-- Another count for an open file. -/
theorem setRef (h : Exact δ s) {n : ℕ} (hn : n = 0 → (s.ftable f).type = .fdNone)
    (hδ : ∀ g, δ' g = δ g + if f = g then (n : ℤ) - (s.ftable f).ref else 0) :
    Exact δ' (s.setFile f { s.ftable f with ref := n }) := by
  have hends : (s.setFile f { s.ftable f with ref := n }).pipeEnd = s.pipeEnd := by
    rw [pipeEnd_setFile]
    exact update_eq_self f s.pipeEnd
  refine ⟨fun g => ?_, fun g hg => ?_, ?_, h.some_open, h.pages⟩
  · have hcount := h.count g
    have hnew := hδ g
    by_cases hg : g = f
    · subst hg
      rw [if_pos rfl] at hnew
      rw [ftable_setFile_self]
      show (n : ℤ) = refs s.ofile g + δ' g
      omega
    · rw [if_neg (Ne.symm hg), add_zero] at hnew
      rw [ftable_setFile_of_ne hg, hnew]
      exact hcount
  · grind [ftable_setFile_self, ftable_setFile_of_ne, h.free]
  · rw [hends]
    exact h.ends

/-- A descriptor gets another value. -/
theorem setFd (h : Exact δ s) (v : Option (Fin NFILE)) :
    Exact (δ + slotRef (s.ofile (p, fd)) - slotRef v) (s.setFd p fd v) := by
  refine ⟨fun g => ?_, h.free, h.ends, h.some_open, h.pages⟩
  show ((s.ftable g).ref : ℤ) = refs (update s.ofile (p, fd) v) g + _
  rw [refs_update, h.count g, Pi.sub_apply, Pi.add_apply]
  omega

/-- `filedup`. -/
theorem filedup (h : Exact δ s) (hf : 1 ≤ (s.ftable f).ref) :
    Ends (fun _ => False) (s.filedup f) fun s' => Exact (δ + one f) s' ∧ s'.ofile = s.ofile := by
  rw [State.filedup, if_neg (by omega)]
  refine .ok ⟨h.setRef (fun hzero => absurd hzero (by omega)) fun g => ?_, rfl⟩
  rw [Pi.add_apply, one_apply]
  split <;> omega

end Exact

/-- `filealloc` has returned `f`. -/
structure Allocated (s : State) (f : Fin NFILE) (s' : State) : Prop where
  was_free : (s.ftable f).ref = 0
  eq : s' = s.setFile f { s.ftable f with ref := 1 }

theorem filealloc_cases (s : State) :
    (∃ f s', Allocated s f s' ∧ s.filealloc = (some f, s')) ∨ s.filealloc = (none, s) := by
  rw [filealloc]
  cases hfind : (List.finRange NFILE).find? fun f => (s.ftable f).ref = 0 with
  | none => exact .inr rfl
  | some f =>
    have hzero : (s.ftable f).ref = 0 :=
      of_decide_eq_true (List.find?_some (p := fun f => decide ((s.ftable f).ref = 0)) hfind)
    exact .inl ⟨f, _, ⟨hzero, rfl⟩, rfl⟩

theorem fdalloc_cases (s : State) (p : Slot) (f : Fin NFILE) :
    (∃ fd, s.ofile (p, fd) = none ∧ s.fdalloc p f = (some fd, s.setFd p fd (some f))) ∨
      s.fdalloc p f = (none, s) := by
  rw [fdalloc]
  grind

theorem Exact.allocated (h : Exact δ s) (ha : Allocated s f s') : Exact (δ + one f) s' := by
  rw [ha.eq]
  apply h.setRef fun hzero => absurd hzero Nat.one_ne_zero
  intro g
  rw [Pi.add_apply, one_apply, ha.was_free]
  rfl

/-- An end of a pipe has been closed. -/
structure Closed (s : State) (e : Page × Bool) (s' : State) : Prop where
  ftable_eq : s'.ftable = s.ftable
  ofile_eq : s'.ofile = s.ofile
  isOpen_iff : ∀ e', s'.IsOpen e' ↔ e' ≠ e ∧ s.IsOpen e'
  some_open : (∀ a x, s.pipe a = some x → x.readopen = true ∨ x.writeopen = true) →
    ∀ a x, s'.pipe a = some x → x.readopen = true ∨ x.writeopen = true
  pages : (∀ a, s.kalloced.count a = s.kfreed.count a + if s.pipe a = none then 0 else 1) →
    ∀ a, s'.kalloced.count a = s'.kfreed.count a + if s'.pipe a = none then 0 else 1

theorem isOpen_close (x : Pipe) (w w' : Bool) :
    (Pipe.close x w).isOpen w' = true ↔ w' ≠ w ∧ x.isOpen w' = true := by
  cases w <;> cases w' <;> simp [Pipe.close, Pipe.isOpen]

theorem isOpen_setPipe {x : Option Pipe} {e : Page × Bool} : (s.setPipe a x).IsOpen e ↔
    if e.1 = a then ∃ y, x = some y ∧ y.isOpen e.2 = true else s.IsOpen e := by
  rw [IsOpen, setPipe]
  dsimp only
  by_cases he : e.1 = a
  · rw [he, update_self, if_pos rfl]
  · rw [update_of_ne he, if_neg he]
    rfl

theorem pipeclose_ends {x : Pipe} (hx : s.pipe a = some x) :
    Ends (fun _ => False) (s.pipeclose a w) (Closed s (a, w)) := by
  -- what is left of the pipe says which of its ends are open
  have hleft : ∀ e : Page × Bool, (if e.1 = a then (Pipe.close x w).isOpen e.2 = true
      else s.IsOpen e) ↔ e ≠ (a, w) ∧ s.IsOpen e := by
    rintro ⟨b, w'⟩
    by_cases hb : b = a
    · subst hb
      rw [if_pos rfl, isOpen_close, IsOpen, hx]
      simp
    · rw [if_neg hb]
      simp [hb]
  rw [pipeclose, hx]
  dsimp only
  apply Ends.ite
  · rintro ⟨hread, hwrite⟩
    have hnone : ∀ w', (Pipe.close x w).isOpen w' = false := by
      intro w'
      cases w'
      · exact hread
      · exact hwrite
    refine .ok ⟨rfl, rfl, fun e => ?_, fun h b y hy => ?_, fun h b => ?_⟩
    · rw [← hleft e, hnone]
      show (s.setPipe a none).IsOpen e ↔ _
      rw [isOpen_setPipe]
      simp
    · by_cases hb : b = a
      · subst hb
        have hy : (s.setPipe b none).pipe b = some y := hy
        rw [pipe_setPipe_self] at hy
        cases hy
      · exact h b y ((pipe_setPipe_of_ne hb).symm.trans hy)
    · show s.kalloced.count b = (s.kfreed ++ [a]).count b +
        if update s.pipe a none b = none then 0 else 1
      rw [h b, List.count_append]
      by_cases hb : b = a
      · subst hb
        rw [hx, update_self, List.count_singleton_self]
        rfl
      · have hcount : [a].count b = 0 := List.count_eq_zero.mpr (by simpa using hb)
        rw [update_of_ne hb, hcount, Nat.add_zero]
  · intro hopen
    refine .ok ⟨rfl, rfl, fun e => ?_, fun h b y hy => ?_, fun h b => ?_⟩
    · rw [← hleft e, isOpen_setPipe]
      simp
    · by_cases hb : b = a
      · subst hb
        rw [pipe_setPipe_self] at hy
        cases hy
        rw [not_and_or, Bool.not_eq_false, Bool.not_eq_false] at hopen
        exact hopen
      · exact h b y ((pipe_setPipe_of_ne hb).symm.trans hy)
    · show s.kalloced.count b = s.kfreed.count b +
        if update s.pipe a (some (Pipe.close x w)) b = none then 0 else 1
      rw [h b]
      by_cases hb : b = a
      · subst hb
        rw [hx, update_self]
        rfl
      · rw [update_of_ne hb]

/-- An open file in hand is closed. -/
theorem Exact.fileclose (h : Exact δ s) (hf : 1 ≤ (s.ftable f).ref) :
    Ends (fun _ => False) (s.fileclose f) fun s' =>
      Exact (δ - one f) s' ∧ s'.ofile = s.ofile := by
  rw [State.fileclose]
  dsimp only
  rw [if_neg (by omega)]
  apply Ends.ite
  · intro hmore
    refine .ok ⟨h.setRef (fun hzero => absurd hzero (by omega)) fun g => ?_, rfl⟩
    rw [Pi.sub_apply, one_apply]
    split <;> omega
  · intro hlast
    obtain ⟨s₁, hs₁⟩ : ∃ s₁, s.setFile f { s.ftable f with ref := 0, type := .fdNone } = s₁ :=
      ⟨_, rfl⟩
    have hone : (s.ftable f).ref = 1 := by omega
    have hcount : ∀ g, ((s₁.ftable g).ref : ℤ) = refs s₁.ofile g + (δ - one f) g := by
      intro g
      have hold := h.count g
      rw [← hs₁, Pi.sub_apply, one_apply]
      show _ = refs s.ofile g + _
      grind [ftable_setFile_self, ftable_setFile_of_ne]
    have hfree : ∀ g, (s₁.ftable g).ref = 0 → (s₁.ftable g).type = .fdNone := by
      grind [ftable_setFile_self, ftable_setFile_of_ne, h.free]
    have hends : s₁.pipeEnd = update s.pipeEnd f none := by
      rw [← hs₁, pipeEnd_setFile]
      rfl
    have hofile : s₁.ofile = s.ofile := by
      rw [← hs₁]
      rfl
    rw [hs₁]
    cases htype : (s.ftable f).type with
    | fdPipe =>
      have hend : s.pipeEnd f = some ((s.ftable f).pipe, (s.ftable f).writable) :=
        if_pos htype
      obtain ⟨x, hx, -⟩ := h.ends.used_of_ref hend
      have hx : s₁.pipe (s.ftable f).pipe = some x := by
        rw [← hs₁]
        exact hx
      apply (pipeclose_ends hx).mono
      intro s₂ hclosed
      have hpipeEnd : s₂.pipeEnd = s₁.pipeEnd := by
        funext g
        rw [pipeEnd, pipeEnd, hclosed.ftable_eq]
      refine ⟨⟨?_, ?_, ?_, ?_, ?_⟩, hclosed.ofile_eq.trans hofile⟩
      · rw [hclosed.ftable_eq, hclosed.ofile_eq]
        exact hcount
      · rw [hclosed.ftable_eq]
        exact hfree
      · rw [hpipeEnd, hends]
        apply h.ends.drop hend
        intro e _
        rw [hclosed.isOpen_iff, ← hs₁]
        rfl
      · apply hclosed.some_open
        rw [← hs₁]
        exact h.some_open
      · apply hclosed.pages
        rw [← hs₁]
        exact h.pages
    | fdInode | fdNone =>
      have hnone : s.pipeEnd f = none := if_neg (by rw [htype]; decide)
      refine .ok ⟨⟨hcount, hfree, ?_, ?_, ?_⟩, hofile⟩
      · rw [hends, update_eq_self_iff.mpr hnone.symm, ← hs₁]
        exact h.ends
      · rw [← hs₁]
        exact h.some_open
      · rw [← hs₁]
        exact h.pages

/-- An open file in hand becomes one of another type; the ends of pipes are as given. -/
theorem Exact.setType (h : Exact δ s) (hf : (s.ftable f).type = .fdNone)
    (hpos : 1 ≤ (s.ftable f).ref) {x : File} (href : x.ref = (s.ftable f).ref)
    (htype : x.type ≠ .fdPipe) : Exact δ (s.setFile f x) := by
  have hnone : s.pipeEnd f = none := if_neg (by rw [hf]; decide)
  have hends : (s.setFile f x).pipeEnd = s.pipeEnd := by
    rw [pipeEnd_setFile, if_neg htype]
    exact update_eq_self_iff.mpr hnone.symm
  refine ⟨fun g => ?_, fun g hg => ?_, ?_, h.some_open, h.pages⟩
  · have hcount := h.count g
    by_cases hg : g = f
    · subst hg
      rw [ftable_setFile_self, href]
      exact hcount
    · rw [ftable_setFile_of_ne hg]
      exact hcount
  · grind [ftable_setFile_self, ftable_setFile_of_ne, h.free]
  · rw [hends]
    exact h.ends

/-- `pipealloc` with two open files in hand and a page. -/
def makePipe (s : State) (f0 f1 : Fin NFILE) (a : Page) : State :=
  let s := { s.setPipe a (some ⟨true, true⟩) with kalloced := s.kalloced ++ [a] }
  let s := s.setFile f0 { s.ftable f0 with
    type := .fdPipe, readable := true, writable := false, pipe := a }
  s.setFile f1 { s.ftable f1 with
    type := .fdPipe, readable := false, writable := true, pipe := a }

theorem makePipe_ref (f0 f1 : Fin NFILE) (a : Page) (g : Fin NFILE) :
    ((s.makePipe f0 f1 a).ftable g).ref = (s.ftable g).ref := by
  rw [makePipe]
  by_cases hg : g = f1
  · subst hg
    rw [ftable_setFile_self]
    by_cases hg0 : g = f0
    · subst hg0
      rw [ftable_setFile_self]
      rfl
    · rw [ftable_setFile_of_ne hg0]
      rfl
  · rw [ftable_setFile_of_ne hg]
    by_cases hg0 : g = f0
    · subst hg0
      rw [ftable_setFile_self]
      rfl
    · rw [ftable_setFile_of_ne hg0]
      rfl

theorem makePipe_type {f0 f1 : Fin NFILE} (h0 : g ≠ f0) (h1 : g ≠ f1) :
    ((s.makePipe f0 f1 a).ftable g).type = (s.ftable g).type := by
  rw [makePipe, ftable_setFile_of_ne h1, ftable_setFile_of_ne h0]
  rfl

theorem Exact.makePipe (h : Exact δ s) {f0 f1 : Fin NFILE} (hne : f1 ≠ f0)
    (h0 : 1 ≤ (s.ftable f0).ref) (h1 : 1 ≤ (s.ftable f1).ref)
    (ht0 : (s.ftable f0).type = .fdNone) (ht1 : (s.ftable f1).type = .fdNone)
    (hpage : s.kalloced.count a = s.kfreed.count a) : Exact δ (s.makePipe f0 f1 a) := by
  have hnone : s.pipe a = none := by
    have hpages := h.pages a
    by_contra hsome
    rw [if_neg hsome] at hpages
    omega
  have hfresh : ∀ w, ¬ s.IsOpen (a, w) := by
    rintro w ⟨x, hx, -⟩
    rw [hnone] at hx
    cases hx
  have hends : (s.makePipe f0 f1 a).pipeEnd =
      update (update s.pipeEnd f0 (some (a, false))) f1 (some (a, true)) := by
    rw [State.makePipe, pipeEnd_setFile, pipeEnd_setFile]
    rfl
  have hopen : ∀ e, (s.makePipe f0 f1 a).IsOpen e ↔
      e = (a, true) ∨ e = (a, false) ∨ s.IsOpen e := by
    rintro ⟨b, w⟩
    show (s.setPipe a (some ⟨true, true⟩)).IsOpen (b, w) ↔ _
    rw [isOpen_setPipe]
    by_cases hb : b = a
    · subst hb
      cases w <;> simp [Pipe.isOpen]
    · simp [hb]
  refine ⟨fun g => ?_, fun g hg => ?_, ?_, fun b x hx => ?_, fun b => ?_⟩
  · rw [makePipe_ref]
    exact h.count g
  · grind [makePipe_ref, makePipe_type, h.free]
  · rw [hends]
    have hend0 : s.pipeEnd f0 = none := if_neg (by rw [ht0]; decide)
    have hend1 : update s.pipeEnd f0 (some (a, false)) f1 = none := by
      rw [update_of_ne hne]
      exact if_neg (by rw [ht1]; decide)
    have hfirst : Owns (fun _ => False) (fun _ => True)
        (fun e => e = (a, false) ∨ s.IsOpen e) (update s.pipeEnd f0 (some (a, false))) :=
      h.ends.take trivial (hfresh false) hend0 fun _ _ => Iff.rfl
    apply hfirst.take trivial _ hend1 fun e _ => hopen e
    rintro (heq | hopen)
    · cases heq
    · exact hfresh true hopen
  · have hx : (s.setPipe a (some ⟨true, true⟩)).pipe b = some x := hx
    grind [pipe_setPipe_self, pipe_setPipe_of_ne, h.some_open]
  · show (s.kalloced ++ [a]).count b = s.kfreed.count b +
      if (s.setPipe a (some ⟨true, true⟩)).pipe b = none then 0 else 1
    grind [pipe_setPipe_self, pipe_setPipe_of_ne, h.pages]

/-- The references a call that returns two open files has in hand. -/
def handed : Option (Fin NFILE × Fin NFILE) → Fin NFILE → ℤ
  | none => 0
  | some (f0, f1) => one f0 + one f1

theorem one_self (f : Fin NFILE) : one f f = 1 := by
  rw [one_apply, if_pos rfl]

theorem one_nonneg (f g : Fin NFILE) : 0 ≤ one f g := by
  rw [one_apply]
  split <;> decide

theorem Exact.pipealloc (h : Exact 0 s) {page : Option Page}
    (hpage : ∀ a, page = some a → s.kalloced.count a = s.kfreed.count a) :
    Ends (fun _ => False) (s.pipealloc page) fun r => Exact (handed r.1) r.2 := by
  rw [State.pipealloc]
  rcases filealloc_cases s with ⟨f0, s₁, ha0, heq⟩ | hnone
  · rw [heq]
    dsimp only
    have h₁ := h.allocated ha0
    rw [zero_add] at h₁
    rcases filealloc_cases s₁ with ⟨f1, s₂, ha1, heq⟩ | hnone
    · rw [heq]
      have h₂ := h₁.allocated ha1
      cases page with
      | none =>
        apply (h₂.fileclose (h₂.ref_pos ?_)).bind
        · rintro s₃ ⟨h₃, -⟩
          apply (h₃.fileclose (h₃.ref_pos ?_)).bind
          · rintro s₄ ⟨h₄, -⟩
            apply Ends.pure
            apply h₄.congr
            show one f0 + one f1 - one f0 - one f1 = 0
            abel
          · have hself := one_self f1
            rw [Pi.sub_apply, Pi.add_apply]
            omega
        · simp [one_self, one_nonneg]
      | some a =>
        apply Ends.ok
        have heq₁ : s₁ = s.setFile f0 { s.ftable f0 with ref := 1 } := ha0.eq
        have heq₂ : s₂ = s₁.setFile f1 { s₁.ftable f1 with ref := 1 } := ha1.eq
        have hne : f1 ≠ f0 := by
          grind [ha1.was_free, ftable_setFile_self]
        have ht0 : (s₂.ftable f0).type = .fdNone := by
          grind [ftable_setFile_of_ne, ftable_setFile_self, h.free, ha0.was_free]
        have ht1 : (s₂.ftable f1).type = .fdNone := by
          rw [heq₂, ftable_setFile_self]
          exact h₁.free f1 ha1.was_free
        have hpos : ∀ g, g = f0 ∨ g = f1 → 1 ≤ (s₂.ftable g).ref := by
          intro g hg
          apply h₂.ref_pos
          have h0 := one_nonneg f0 g
          have h1 := one_nonneg f1 g
          grind [Pi.add_apply, one_self]
        have hcount : s₂.kalloced.count a = s₂.kfreed.count a := by
          rw [heq₂, heq₁]
          exact hpage a rfl
        exact h₂.makePipe hne (hpos f0 (.inl rfl)) (hpos f1 (.inr rfl)) ht0 ht1 hcount
    · rw [hnone]
      apply (h₁.fileclose (h₁.ref_pos (one_self f0).ge)).bind
      rintro s₂ ⟨h₂, -⟩
      apply Ends.pure
      exact h₂.congr (sub_self _)
  · rw [hnone]
    exact .ok h

/-! ## The calls -/

/-- A reference in hand is given to a descriptor. -/
theorem Exact.give (h : Exact (δ + one f) s) (hfd : s.ofile (p, fd) = none) :
    Exact δ (s.setFd p fd (some f)) := by
  apply (h.setFd (some f)).congr
  rw [hfd]
  funext g
  rw [Pi.sub_apply, Pi.add_apply, Pi.add_apply, slotRef_none, one]
  omega

theorem Exact.sysOpen (h : Exact 0 s) (readable writable : Bool) :
    Ends (fun _ => False) (s.sysOpen p readable writable) (Exact 0) := by
  rw [State.sysOpen]
  rcases filealloc_cases s with ⟨f, s₁, ha, heq⟩ | hnone
  · rw [heq]
    have h₁ := h.allocated ha
    have heq₁ : s₁ = s.setFile f { s.ftable f with ref := 1 } := ha.eq
    dsimp only
    rcases fdalloc_cases s₁ p f with ⟨fd, hfd, heq⟩ | hnone
    · rw [heq]
      have h₂ := h₁.give hfd
      apply Ends.ok
      have hfile : (s₁.setFd p fd (some f)).ftable f = { s.ftable f with ref := 1 } := by
        rw [heq₁]
        exact ftable_setFile_self _
      refine h₂.setType ?_ ?_ rfl FileType.noConfusion
      · rw [hfile]
        exact h.free f ha.was_free
      · rw [hfile]
    · rw [hnone]
      have hpos : 1 ≤ (s₁.ftable f).ref := by
        apply h₁.ref_pos
        rw [Pi.add_apply, one_self, Pi.zero_apply]
        omega
      apply (h₁.fileclose hpos).mono
      rintro s₂ ⟨h₂, -⟩
      exact h₂.congr (add_sub_cancel_right _ _)
  · rw [hnone]
    exact .ok h

theorem Exact.sysDup (h : Exact 0 s) :
    Ends (fun _ => False) (s.sysDup p fd) (Exact 0) := by
  rw [State.sysDup]
  cases hfd : s.ofile (p, fd) with
  | none => exact .ok h
  | some f =>
    dsimp only
    rcases fdalloc_cases s p f with ⟨fd', hfree, heq⟩ | hnone
    · rw [heq]
      have hself : Exact ((0 : Fin NFILE → ℤ) - one f + one f) s :=
        h.congr (sub_add_cancel _ _).symm
      apply ((hself.give hfree).filedup (h.ref_pos_of_fd hfd)).mono
      rintro s₂ ⟨h₂, -⟩
      exact h₂.congr (sub_add_cancel _ _)
    · rw [hnone]
      exact .ok h

/-- A descriptor is cleared, which leaves its reference in hand. -/
theorem Exact.clear (h : Exact δ s) (hfd : s.ofile (p, fd) = some f) :
    Exact (δ + one f) (s.setFd p fd none) := by
  apply (h.setFd none).congr
  rw [hfd]
  funext g
  rw [Pi.sub_apply, Pi.add_apply, Pi.add_apply, slotRef_none, sub_zero]
  rfl

theorem Exact.sysClose (h : Exact 0 s) :
    Ends (fun _ => False) (s.sysClose p fd) (Exact 0) := by
  rw [State.sysClose]
  cases hfd : s.ofile (p, fd) with
  | none => exact .ok h
  | some f =>
    apply ((h.clear hfd).fileclose (h.ref_pos_of_fd hfd)).mono
    rintro s₂ ⟨h₂, -⟩
    exact h₂.congr (add_sub_cancel_right _ _)

/-- Both ends of a new pipe are closed again. -/
theorem Exact.closeBoth {rf wf : Fin NFILE} (h : Exact (one rf + one wf) s) :
    Ends (fun _ => False) (do
      let s ← s.fileclose rf
      s.fileclose wf) (Exact 0) := by
  have hrf : 1 ≤ (s.ftable rf).ref := by
    apply h.ref_pos
    have hself := one_self rf
    have hother := one_nonneg wf rf
    rw [Pi.add_apply]
    omega
  apply (h.fileclose hrf).bind
  rintro s₁ ⟨h₁, -⟩
  have h₁ := h₁.congr (add_sub_cancel_left _ _)
  apply (h₁.fileclose (h₁.ref_pos (one_self wf).ge)).mono
  rintro s₂ ⟨h₂, -⟩
  exact h₂.congr (sub_self _)

theorem Exact.sysPipe (h : Exact 0 s) {page : Option Page}
    (hpage : ∀ a, page = some a → s.kalloced.count a = s.kfreed.count a) :
    Ends (fun _ => False) (s.sysPipe p page) (Exact 0) := by
  rw [State.sysPipe]
  apply (h.pipealloc hpage).bind
  rintro ⟨ends, s₁⟩ h₁
  cases ends with
  | none => exact .pure h₁
  | some ends =>
    obtain ⟨rf, wf⟩ := ends
    have h₁ : Exact (one rf + one wf) s₁ := h₁
    dsimp only
    rcases fdalloc_cases s₁ p rf with ⟨fd0, hfd0, heq⟩ | hnone
    · rw [heq]
      have h₂ : Exact (one wf) (s₁.setFd p fd0 (some rf)) :=
        (h₁.congr (add_comm _ _)).give hfd0
      dsimp only
      rcases fdalloc_cases (s₁.setFd p fd0 (some rf)) p wf with ⟨fd1, hfd1, heq⟩ | hnone
      · rw [heq]
        apply Ends.pure
        have h₂ : Exact (0 + one wf) (s₁.setFd p fd0 (some rf)) := h₂.congr (zero_add _).symm
        exact h₂.give hfd1
      · rw [hnone]
        apply Exact.closeBoth
        have hset : (s₁.setFd p fd0 (some rf)).ofile (p, fd0) = some rf :=
          update_self ..
        exact (h₂.clear hset).congr (add_comm _ _)
    · rw [hnone]
      exact h₁.closeBoth

theorem Exact.dupAll {fds : List (Fin NOFILE)} (h : Exact 0 s) (hnodup : fds.Nodup)
    (hfree : ∀ fd ∈ fds, s.ofile (np, fd) = none) :
    Ends (fun _ => False) (dupAll p np fds s) (Exact 0) := by
  induction fds generalizing s with
  | nil => exact .pure h
  | cons fd rest ih =>
    obtain ⟨hnew, hrest⟩ := List.nodup_cons.mp hnodup
    rw [State.dupAll]
    cases hfd : s.ofile (p, fd) with
    | none => exact ih h hrest fun fd' hfd' => hfree fd' (List.mem_cons_of_mem _ hfd')
    | some f =>
      apply (h.filedup (h.ref_pos_of_fd hfd)).bind
      rintro s₁ ⟨h₁, hofile⟩
      have hslot : s₁.ofile (np, fd) = none := by
        rw [hofile]
        exact hfree fd List.mem_cons_self
      apply ih (h₁.give hslot) hrest
      intro fd' hfd'
      have hne : (np, fd') ≠ (np, fd) := by
        rintro heq
        cases heq
        exact hnew hfd'
      show update s₁.ofile (np, fd) (some f) (np, fd') = none
      rw [update_of_ne hne, hofile]
      exact hfree fd' (List.mem_cons_of_mem _ hfd')

theorem Exact.closeAll {fds : List (Fin NOFILE)} (h : Exact 0 s) :
    Ends (fun _ => False) (closeAll p fds s) (Exact 0) := by
  induction fds generalizing s with
  | nil => exact .pure h
  | cons fd rest ih =>
    rw [State.closeAll]
    cases hfd : s.ofile (p, fd) with
    | none => exact ih h
    | some f =>
      apply (h.fileclose (h.ref_pos_of_fd hfd)).bind
      rintro s₁ ⟨h₁, hofile⟩
      have hslot : s₁.ofile (p, fd) = some f := by
        rw [hofile]
        exact hfd
      exact ih ((h₁.clear hslot).congr (sub_add_cancel _ _))

end State

open State in
/-- A proper call returns and keeps the counts exact. -/
theorem Call.perform_exact {s : State} {p : Slot} {c : Call} (h : Exact 0 s)
    (hproper : c.Proper s p) : Ends (fun _ => False) (c.perform s p) (Exact 0) := by
  cases c with
  | «open» found readable writable =>
    cases found with
    | false => exact .ok h
    | true => exact h.sysOpen readable writable
  | dup fd =>
    cases fd with
    | none => exact .ok h
    | some fd => exact h.sysDup
  | close fd =>
    cases fd with
    | none => exact .ok h
    | some fd => exact h.sysClose
  | pipe arg page =>
    cases arg with
    | false => exact .ok h
    | true =>
      apply h.sysPipe
      rintro a rfl
      exact hproper
  | fork np =>
    cases np with
    | none => exact .ok h
    | some np => exact h.dupAll (List.nodup_finRange _) fun fd _ => hproper fd
  | exit =>
    rw [Call.perform, if_neg hproper]
    exact h.closeAll
  | exec => exact .ok h

theorem exact_empty : State.Exact 0 {} := by
  refine ⟨fun f => ?_, fun _ _ => rfl, ⟨fun _ _ h => h, ?_, ?_, ?_⟩, nofun, fun _ => rfl⟩
  · rw [refs_eq_zero fun _ => rfl]
    rfl
  · rintro e -
    constructor
    · rintro ⟨x, hx, -⟩
      cases hx
    · rintro (hf | ⟨f, hf⟩)
      · exact hf.elim
      · cases hf
  · rintro f e hf
    cases hf
  · rintro f g e hf
    cases hf

theorem exact_of_reachable {s : State} (h : system.Reachable s) : s.Exact 0 := by
  apply h.invariant
  · rintro s rfl
    exact exact_empty
  · rintro s ⟨p, c⟩ hs ⟨hproper, -⟩
    obtain ⟨s', hs', hexact⟩ := (Call.perform_exact hs hproper).returns
    simp only [system, hs']
    exact hexact

/-- An open file in use that is an end of the pipe in page `a`. -/
def State.IsEnd (s : State) (f : Fin NFILE) (a : Page) (writable : Bool) : Prop :=
  0 < (s.ftable f).ref ∧ (s.ftable f).type = .fdPipe ∧ (s.ftable f).pipe = a ∧
    (s.ftable f).writable = writable
  deriving Decidable

theorem State.Exact.isEnd_iff {s : State} (h : s.Exact 0) (f : Fin NFILE) (a : Page) (w : Bool) :
    s.IsEnd f a w ↔ s.pipeEnd f = some (a, w) := by
  rw [State.pipeEnd, State.IsEnd]
  grind [h.free]

/-- The open ends of pipes are those of open files in use. -/
theorem State.Exact.isOpen_iff {s : State} (h : s.Exact 0) (a : Page) (w : Bool) :
    s.IsOpen (a, w) ↔ ∃ f, s.IsEnd f a w := by
  rw [h.ends.used_iff (a, w) (.inr trivial), false_or]
  exact exists_congr fun f => (h.isEnd_iff f a w).symm

/-- A pipe has an open file. -/
theorem State.Exact.pipe_ne_none_iff {s : State} (h : s.Exact 0) (a : Page) :
    s.pipe a ≠ none ↔ ∃ f w, s.IsEnd f a w := by
  constructor
  · intro hne
    obtain ⟨x, hx⟩ := Option.ne_none_iff_exists'.mp hne
    rcases h.some_open a x hx with hread | hwrite
    · obtain ⟨f, hf⟩ := (h.isOpen_iff a false).mp ⟨x, hx, hread⟩
      exact ⟨f, false, hf⟩
    · obtain ⟨f, hf⟩ := (h.isOpen_iff a true).mp ⟨x, hx, hwrite⟩
      exact ⟨f, true, hf⟩
  · rintro ⟨f, w, hf⟩
    obtain ⟨x, hx, -⟩ := (h.isOpen_iff a w).mpr ⟨f, hf⟩
    rw [hx]
    exact nofun

/-- In every state between calls the count of an open file is the number of descriptors that
refer to it, and one that is not in use has the type `FD_NONE`; an end of a pipe is open if and
only if an open file in use is that end; a page that `pipealloc` has got from `kalloc` has
been given to `kfree` once for each time, but for the last time while there is an open file for
it; and no proper call panics or uses a pipe that is not there. -/
theorem file_refs_exact {s : State} (h : system.Reachable s) :
    (∀ f, (s.ftable f).ref = (Finset.univ.filter fun d => s.ofile d = some f).card) ∧
    (∀ f, (s.ftable f).ref = 0 → (s.ftable f).type = .fdNone) ∧
    (∀ a x, s.pipe a = some x → (x.readopen = true ↔ ∃ f, s.IsEnd f a false) ∧
      (x.writeopen = true ↔ ∃ f, s.IsEnd f a true)) ∧
    (∀ f a w, s.IsEnd f a w → (s.pipe a).isSome) ∧
    (∀ a, s.kalloced.count a = s.kfreed.count a + if ∃ f w, s.IsEnd f a w then 1 else 0) ∧
    ∀ (p : Slot) (c : Call), c.Proper s p → ∃ s', c.perform s p = .ok s' := by
  have hexact := exact_of_reachable h
  have hopen := hexact.isOpen_iff
  have hsome := hexact.pipe_ne_none_iff
  refine ⟨fun f => ?_, hexact.free, fun a x hx => ⟨?_, ?_⟩, fun f a w hf => ?_, fun a => ?_,
    fun p c hc => ?_⟩
  · have hcount := hexact.count f
    rw [refs_eq_card, Pi.zero_apply, add_zero] at hcount
    exact Int.ofNat_inj.mp hcount
  · rw [← hopen, State.IsOpen, hx]
    simp [Pipe.isOpen]
  · rw [← hopen, State.IsOpen, hx]
    simp [Pipe.isOpen]
  · exact Option.isSome_iff_ne_none.mpr ((hsome a).mpr ⟨f, w, hf⟩)
  · rw [hexact.pages a]
    by_cases hnone : s.pipe a = none
    · rw [if_pos hnone, if_neg fun hend => (hsome a).mpr hend hnone]
    · rw [if_neg hnone, if_pos ((hsome a).mp hnone)]
  · obtain ⟨s', hs', -⟩ := (Call.perform_exact hexact hc).returns
    exact ⟨s', hs'⟩

/-- Process 0 makes a pipe in page 7 and forks; it closes the writing end, and its child, which
has both, exits. -/
def pipeAndFork : List (Slot × Call) :=
  [(0, .pipe true (some 7)), (0, .fork (some 1)), (0, .close (some ⟨1, by decide⟩)),
    (1, .exit)]

set_option maxRecDepth 10000 in
theorem file_refs_after_pipe : ∃ s, system.Reachable s ∧ s.pipe 7 = some ⟨true, false⟩ ∧
    (∃ f, s.IsEnd f 7 false) ∧ ¬ ∃ f, s.IsEnd f 7 true := by
  obtain ⟨s, hs, hpipe⟩ := Machine.exists_reachable_of_exec system pipeAndFork
    (s := {}) (P := fun s => s.pipe 7 = some ⟨true, false⟩) rfl (by decide +kernel)
  obtain ⟨hread, hwrite⟩ := (file_refs_exact hs).2.2.1 7 _ hpipe
  exact ⟨s, hs, hpipe, hread.mp rfl, fun hend => Bool.noConfusion (hwrite.mpr hend)⟩

end Xv6.Files
