/-
# Redo logs

A store that is updated by replaying writes, and the state of a disk on which the
last group of writes has been copied to a log but perhaps not yet, or only partly,
to its home. Such a disk is as good as the updated store: installing any number of
log entries keeps it so, however often it is interrupted and started again, and
installing all of them makes the home blocks equal to the store.
-/

import Mathlib.Data.List.Induction
import Mathlib.Logic.Function.Basic

namespace Xv6.Lib.Redo

open Function

universe u v w

variable {ι : Type u} {V : Type v}

/-- The store after some writes, each given with the address it goes to. -/
def replay [DecidableEq ι] {W : Type w} (address : W → ι) (value : W → V) (base : ι → V)
    (writes : List W) : ι → V :=
  writes.foldl (fun store x => update store (address x) (value x)) base

section Replay

variable [DecidableEq ι] {W : Type w} {address : W → ι} {value : W → V} {base : ι → V}

theorem replay_append (before after : List W) :
    replay address value base (before ++ after) =
      replay address value (replay address value base before) after :=
  List.foldl_append

theorem replay_concat (before : List W) (x : W) :
    replay address value base (before ++ [x]) =
      update (replay address value base before) (address x) (value x) :=
  replay_append before [x]

/-- An address nobody writes keeps its value. -/
theorem replay_of_not_mem (writes : List W) {b : ι} (h : ∀ x ∈ writes, address x ≠ b) :
    replay address value base writes b = base b := by
  induction writes using List.reverseRecOn with
  | nil => rfl
  | append_singleton before x ih =>
    rw [replay_concat, update_of_ne (h x (by simp)).symm]
    exact ih fun y hy => h y (by simp [hy])

end Replay

/-- The log entries `L`, with copies of their blocks, lie before a home that is up
to date everywhere else among the addresses `O`. -/
structure Logged (O : ι → Prop) (store : ι → V) (L : List ι) (copy : ℕ → V)
    (home : ι → V) : Prop where
  copied : ∀ k b, L[k]? = some b → copy k = store b
  home_eq : ∀ b, O b → b ∉ L → home b = store b

/-- The first `n` entries have been installed. -/
def Installed (store : ι → V) (L : List ι) (n : ℕ) (home : ι → V) : Prop :=
  ∀ k b, k < n → L[k]? = some b → home b = store b

variable {O : ι → Prop} {store home : ι → V} {L : List ι} {copy : ℕ → V} {n : ℕ}

/-- Installing an entry keeps the disk equivalent to the store. -/
theorem Logged.install [DecidableEq ι] (h : Logged O store L copy home) {k : ℕ} {b : ι}
    (hk : L[k]? = some b) : Logged O store L copy (update home b (copy k)) := by
  refine ⟨h.copied, fun x hx hxL => ?_⟩
  grind [h.home_eq]

/-- Installing the next entry, whatever was installed before. -/
theorem Installed.next [DecidableEq ι] (h : Installed store L n home)
    (hlog : Logged O store L copy home) {b : ι} (hn : L[n]? = some b) :
    Installed store L (n + 1) (update home b (copy n)) := by
  intro k x hk hx
  by_cases hxb : x = b
  · subst hxb
    rw [update_self]
    exact hlog.copied n x hn
  · rw [update_of_ne hxb]
    refine h k x ?_ hx
    grind

theorem installed_zero : Installed store L 0 home := fun _ _ h => absurd h (Nat.not_lt_zero _)

/-- When all entries are installed the home is the store. -/
theorem Logged.home_of_installed (h : Logged O store L copy home)
    (hall : Installed store L L.length home) {b : ι} (hb : O b) : home b = store b := by
  by_cases hbL : b ∈ L
  · obtain ⟨k, hk⟩ := List.mem_iff_getElem?.mp hbL
    exact hall k b (List.getElem?_eq_some_iff.mp hk).1 hk
  · exact h.home_eq b hb hbL

/-- With an empty log the home is the store. -/
theorem logged_nil (h : ∀ b, O b → home b = store b) : Logged O store [] copy home :=
  ⟨nofun, fun b hb _ => h b hb⟩

end Xv6.Lib.Redo
