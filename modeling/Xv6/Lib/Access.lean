/-
# Programs that read memory

A program that reads a memory cell by cell and may fail, with the addresses it has read. The
rules bound the addresses and the result at once, following the structure of the program.
-/

import Mathlib.Logic.Basic

namespace Xv6.Lib

/-- A run of a program: the addresses it has read, and its result if it has not failed. -/
structure Access (ι α : Type) where
  reads : List ι
  result : Option α

namespace Access

variable {ι α β : Type} {P : ι → Prop} {Q Q' : α → Prop} {R : β → Prop} {x : Access ι α} {a : α}

def fail : Access ι α := ⟨[], none⟩

/-- A cell is read. -/
def read (mem : ι → α) (addr : ι) : Access ι α := ⟨[addr], some (mem addr)⟩

instance : Monad (Access ι) where
  pure a := ⟨[], some a⟩
  bind x f :=
    match x.result with
    | none => ⟨x.reads, none⟩
    | some a => ⟨x.reads ++ (f a).reads, (f a).result⟩

theorem result_bind (x : Access ι α) (f : α → Access ι β) :
    (x >>= f).result = x.result.bind fun a => (f a).result := by
  obtain ⟨reads, result⟩ := x
  cases result with
  | none => rfl
  | some a => rfl

/-- The program reads only where `P` holds, and a result it returns has property `Q`. -/
def Within (P : ι → Prop) (x : Access ι α) (Q : α → Prop) : Prop :=
  (∀ addr ∈ x.reads, P addr) ∧ ∀ a, x.result = some a → Q a

namespace Within

theorem pure (h : Q a) : Within P (Pure.pure a) Q := by
  refine ⟨fun addr hmem => absurd hmem List.not_mem_nil, ?_⟩
  intro a' ha'
  rw [← Option.some_inj.mp ha']
  exact h

theorem fail : Within P (Access.fail : Access ι α) Q :=
  ⟨fun addr hmem => absurd hmem List.not_mem_nil, by simp [Access.fail]⟩

theorem read {mem : ι → α} {addr : ι} (h : P addr) :
    Within P (Access.read mem addr) fun b => b = mem addr := by
  constructor
  · intro addr' hmem
    rw [List.mem_singleton.mp hmem]
    exact h
  · intro b hb
    exact (Option.some_inj.mp hb).symm

theorem mono (h : Within P x Q) (hQ : ∀ a, Q a → Q' a) : Within P x Q' :=
  ⟨h.1, fun a ha => hQ a (h.2 a ha)⟩

theorem bind {f : α → Access ι β} (h : Within P x Q) (hf : ∀ a, Q a → Within P (f a) R) :
    Within P (x >>= f) R := by
  obtain ⟨reads, result⟩ := x
  cases result with
  | none => exact ⟨h.1, by simp [Bind.bind]⟩
  | some a =>
    have ha := hf a (h.2 a rfl)
    refine ⟨fun addr hmem => ?_, ha.2⟩
    obtain hold | hnew := List.mem_append.mp hmem
    · exact h.1 addr hold
    · exact ha.1 addr hnew

theorem ite {c : Prop} [Decidable c] {y : Access ι α} (ht : c → Within P x Q)
    (he : ¬ c → Within P y Q) : Within P (if c then x else y) Q := by
  by_cases hc : c
  · rw [if_pos hc]
    exact ht hc
  · rw [if_neg hc]
    exact he hc

end Within

end Access

end Xv6.Lib
