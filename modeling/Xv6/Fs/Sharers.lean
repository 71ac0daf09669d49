/-
# Sharing an open file loses nothing

One step of a process in `filewrite` appends a piece of its buffer at the offset of the open
file, and no step of anybody else changes the file or the offset. So over a whole run the
file from the first offset to the last is all the pieces, in the order in which they were
written, and the pieces of a process are those of its buffers, in order.
-/

import Xv6.Fs.Filewrite
import Xv6.Fs.Rewrite

namespace Xv6.Fs

open Xv6.Lib

variable {sb : Superblock} {dev : Devsw} {N : ℕ}

/-- A piece is written only if there is one, and then whole. -/
def Writer.Ok : Writer → Prop
  | .returned _ => True
  | .next buf i | .inOp buf i => i < buf.length
  | .wrote buf i r => i < buf.length ∧ r = some (piece buf i).length

theorem Writer.ok_loop (buf : List UInt8) (i : ℕ) : (Writer.loop buf i).Ok := by
  rw [Writer.loop]
  split
  · next h => exact h
  · trivial

namespace Shared

variable {x x' : Shared N} {p q : Fin N} {buf : List UInt8} {i n : ℕ} {fs : State}

@[simp]
theorem writer_setWriter_self (w : Writer) : (x.setWriter p w).writer p = w :=
  Function.update_self ..

theorem writer_setWriter_of_ne {w : Writer} (h : q ≠ p) :
    (x.setWriter p w).writer q = x.writer q :=
  Function.update_of_ne h ..

/-- The open file is one of a regular file, and its offset is not beyond the end. -/
structure FileOk (sb : Superblock) (x : Shared N) : Prop where
  wf : WellFormed sb x.fs
  ref_pos : 0 < (x.fs.icache x.ip).ref
  regular : (sb.dinode x.fs.disk (x.fs.icache x.ip).inum).type = T_FILE
  off_le : x.off ≤ (x.contents sb).length
  writable : x.writable = true
  writer_ok : ∀ p, (x.writer p).Ok

namespace FileOk

theorem file_eq (h : FileOk sb x) :
    (sb.node x.fs.disk (x.fs.icache x.ip).inum).map Node.file = some (T_FILE, x.contents sb) := by
  have hnode : sb.node x.fs.disk (x.fs.icache x.ip).inum =
      some ((sb.dinode x.fs.disk (x.fs.icache x.ip).inum).toNode x.fs.disk) := by
    apply Superblock.node_eq_some.mpr
    refine ⟨h.wf.inum_lt x.ip h.ref_pos, ?_, rfl⟩
    rw [h.regular]
    decide
  rw [hnode, Option.map_some, Node.file, Dinode.toNode, ← h.regular]
  rfl

theorem node_ne (h : FileOk sb x) : sb.node x.fs.disk (x.fs.icache x.ip).inum ≠ none := by
  intro hnone
  have hfile := h.file_eq
  rw [hnone] at hfile
  cases hfile

/-- The same file under another state of the inode layer. -/
theorem contents_eq (h : FileOk sb x) (hsame : SameContents sb x.fs x.ip fs) :
    (sb.dinode fs.disk (fs.icache x.ip).inum).type = T_FILE ∧
      { x with fs }.contents sb = x.contents sb := by
  have hfile := hsame.file_eq.trans h.file_eq
  obtain ⟨nd, hnode, hnd⟩ := Option.map_eq_some_iff.mp hfile
  obtain ⟨-, -, rfl⟩ := Superblock.node_eq_some.mp hnode
  rw [contents, hsame.inum_eq]
  exact ⟨congrArg Prod.fst hnd, congrArg Prod.snd hnd⟩

theorem withFs (h : FileOk sb x) (hsame : SameContents sb x.fs x.ip fs) :
    FileOk sb { x with fs } := by
  obtain ⟨hregular, hcontents⟩ := h.contents_eq hsame
  refine ⟨hsame.wf, hsame.ref_pos, hregular, ?_, h.writable, h.writer_ok⟩
  rw [hcontents]
  exact h.off_le

theorem setWriter (h : FileOk sb x) {w : Writer} (hw : w.Ok) : FileOk sb (x.setWriter p w) := by
  refine ⟨h.wf, h.ref_pos, h.regular, h.off_le, h.writable, fun q => ?_⟩
  grind [writer_setWriter_self, writer_setWriter_of_ne, h.writer_ok]

/-- The contents reach as far as the size says. -/
theorem length_contents : (x.contents sb).length =
    (sb.dinode x.fs.disk (x.fs.icache x.ip).inum).size.toNat := length_content

theorem off_le_max (h : FileOk sb x) : x.off ≤ MAXFILE * BSIZE := by
  apply Nat.le_trans h.off_le
  rw [length_contents]
  apply NoHoles.size_le
  apply h.wf.image.noHoles _ (h.wf.inum_lt x.ip h.ref_pos)
  rw [h.regular]
  decide

end FileOk

theorem piece_ne_nil (hi : i < buf.length) : piece buf i ≠ [] := by
  rw [piece, ne_eq, List.take_eq_nil_iff, List.drop_eq_nil_iff]
  intro h
  rcases h with hmax | hlen
  · exact absurd hmax (by decide)
  · omega

theorem advance_some {off n : ℕ} (hn : 0 < n) (hfits : off + n ≤ MAXFILE * BSIZE) :
    advance off (some n) = off + n := by
  have hlt : off + n < 2 ^ 32 := Nat.lt_of_le_of_lt hfits (by decide)
  rw [advance, if_pos hn, Nat.mod_eq_of_lt hlt]

/-- The state after the region of `filewrite`. -/
structure Region (sb : Superblock) (x : Shared N) (p : Fin N) (buf : List UInt8) (i : ℕ)
    (fs : State) (x' : Shared N) : Prop where
  eq : x' = { x with fs, off := x.off + (piece buf i).length }.setWriter p
    (.wrote buf i (some (piece buf i).length))
  wf : WellFormed sb fs
  ref_pos : 0 < (fs.icache x.ip).ref
  regular : (sb.dinode fs.disk (fs.icache x.ip).inum).type = T_FILE
  contents_eq : { x with fs }.contents sb = splice (x.contents sb) x.off (piece buf i)

theorem FileOk.region (h : FileOk sb x) (hi : i < buf.length)
    (hfits : x.off + (piece buf i).length ≤ MAXFILE * BSIZE) :
    Ends (fun _ => True) (x.writePiece sb dev p buf i)
      fun x' => ∃ fs, Region sb x p buf i fs x' := by
  have hE : Lax fun _ => True := fun _ _ _ _ _ => trivial
  apply (State.ilock_ends h.wf hE (.inl trivial) (.inl trivial)).bind
  intro s₁ h₁
  obtain ⟨hlocks, hwf₁⟩ := h₁
  have hdev : (s₁.icache x.ip).copy.type ≠ T_DEV := by
    rw [hlocks.copy, h.regular]
    decide
  have hoff : x.off ≤ (s₁.icache x.ip).copy.size.toNat := by
    rw [hlocks.copy]
    exact FileOk.length_contents ▸ h.off_le
  apply (State.writei_ends hwf₁ hlocks.ref_pos' hlocks.valid hdev hoff hfits hE.budget).bind
  intro r₂ h₂
  obtain ⟨r, s₂⟩ := r₂
  obtain ⟨hr, hw⟩ := h₂
  apply (State.iunlock_ends trivial).bind
  intro s₃ hunlocks
  have hrewritten := hlocks.rewritten hw hunlocks
  refine .pure ⟨s₃, ?_, hrewritten.wf, hrewritten.ref_pos, ?_, hrewritten.contents_eq⟩
  · grind [List.length_pos_of_ne_nil, piece_ne_nil, advance_some]
  · rw [hrewritten.type_eq]
    exact h.regular

end Shared

/-- The pieces in which `filewrite` writes a buffer. -/
def pieces (buf : List UInt8) : List (List UInt8) :=
  if buf = [] then [] else buf.take maxPiece :: pieces (buf.drop maxPiece)
termination_by buf.length
decreasing_by
  next h =>
    have hpos := List.length_pos_of_ne_nil h
    have hmax : 0 < maxPiece := by decide
    rw [List.length_drop]
    omega

theorem pieces_nil : pieces [] = [] := by
  rw [pieces, if_pos rfl]

theorem pieces_of_short {buf : List UInt8} (hne : buf ≠ []) (hshort : buf.length ≤ maxPiece) :
    pieces buf = [buf] := by
  rw [pieces, if_neg hne, List.take_of_length_le hshort, List.drop_of_length_le hshort, pieces_nil]

theorem flatten_pieces (buf : List UInt8) : (pieces buf).flatten = buf := by
  fun_induction pieces buf with
  | case1 => rfl
  | case2 buf _ ih => rw [List.flatten_cons, ih, List.take_append_drop]

/-- The next piece comes off the front of what is left. -/
theorem pieces_drop {buf : List UInt8} {i : ℕ} (hi : i < buf.length) :
    pieces (buf.drop i) = piece buf i :: pieces (buf.drop (i + (piece buf i).length)) := by
  have hne : buf.drop i ≠ [] := by
    rw [ne_eq, List.drop_eq_nil_iff]
    omega
  have hlength : (piece buf i).length = min maxPiece (buf.length - i) := by
    rw [piece, List.length_take, List.length_drop]
  rw [pieces, if_neg hne, List.drop_drop]
  apply congrArg (piece buf i :: pieces ·)
  grind [List.drop_of_length_le]

/-- What happens to the file: a process calls `filewrite`, or one of its pieces is stored. -/
inductive Event (N : ℕ)
  | call (p : Fin N) (buf : List UInt8)
  | stored (p : Fin N) (bytes : List UInt8)

namespace Event

/-- The bytes an event adds to the file. -/
def bytes : Event N → List UInt8
  | .stored _ bytes => bytes
  | .call _ _ => []

/-- The pieces of process `p` an event adds to the file. -/
def storedBy (p : Fin N) : Event N → List (List UInt8)
  | .stored q bytes => if q = p then [bytes] else []
  | .call _ _ => []

/-- The pieces process `p` asks to be added. -/
def askedBy (p : Fin N) : Event N → List (List UInt8)
  | .call q buf => if q = p then pieces buf else []
  | .stored _ _ => []

end Event

/-- The pieces a process has still to write. -/
def Writer.pending : Writer → List (List UInt8)
  | .returned _ => []
  | .next buf i | .inOp buf i => pieces (buf.drop i)
  | .wrote buf i _ => pieces (buf.drop (i + (piece buf i).length))

theorem Writer.pending_loop (buf : List UInt8) (i : ℕ) :
    (Writer.loop buf i).pending = pieces (buf.drop i) := by
  rw [Writer.loop]
  split
  · rfl
  · rw [List.drop_of_length_le (by omega), pieces_nil, Writer.pending]

theorem splice_nil (old : List UInt8) (off : ℕ) : splice old off [] = old := by
  rw [splice, List.append_nil, List.length_nil, Nat.add_zero, List.take_append_drop]

theorem length_splice {old src : List UInt8} {off : ℕ} (hoff : off ≤ old.length) :
    off + src.length ≤ (splice old off src).length := by
  simp [splice, hoff]

/-- A piece behind a piece. -/
theorem splice_splice {old a b : List UInt8} {off : ℕ} (hoff : off ≤ old.length) :
    splice (splice old off a) (off + a.length) b = splice old off (a ++ b) := by
  have hlength : (old.take off ++ a).length = off + a.length := by
    rw [List.length_append, List.length_take, Nat.min_eq_left hoff]
  have htake : (splice old off a).take (off + a.length) = old.take off ++ a := by
    rw [splice, ← hlength, List.take_left]
  have hdrop : (splice old off a).drop (off + a.length) = old.drop (off + a.length) := by
    rw [splice, ← hlength, List.drop_left]
  rw [splice, htake, ← List.drop_drop, hdrop, List.drop_drop, splice, List.length_append,
    List.append_assoc, List.append_assoc, List.append_assoc, List.append_assoc, Nat.add_assoc]

namespace Shared

variable {x x' : Shared N} {p q : Fin N} {buf : List UInt8} {i n : ℕ} {fs : State}

/-- What a step adds to the log. -/
def event (x : Shared N) : ShareLabel N → Option (Event N)
  | .filewrite p buf => some (.call p buf)
  | .writePiece p =>
    match x.writer p with
    | .inOp buf i => some (.stored p (piece buf i))
    | _ => none
  | .beginOp _ | .endOp _ | .fileread _ _ | .other _ => none

/-- The bytes of some events are behind the old offset, and the pieces asked for are those
stored and those still pending. -/
structure Extended (sb : Superblock) (x : Shared N) (es : List (Event N)) (x' : Shared N) :
    Prop where
  ok : FileOk sb x'
  off_eq : x'.off = x.off + (es.flatMap Event.bytes).length
  contents_eq : x'.contents sb = splice (x.contents sb) x.off (es.flatMap Event.bytes)
  order : ∀ p, (x.writer p).pending ++ es.flatMap (Event.askedBy p) =
    es.flatMap (Event.storedBy p) ++ (x'.writer p).pending

namespace Extended

theorem refl (h : FileOk sb x) : Extended sb x [] x := by
  refine ⟨h, rfl, ?_, fun p => ?_⟩
  · exact (splice_nil _ _).symm
  · rw [List.flatMap_nil, List.flatMap_nil, List.append_nil, List.nil_append]

theorem trans {x'' : Shared N} {es es' : List (Event N)} (hx : FileOk sb x)
    (h : Extended sb x es x') (h' : Extended sb x' es' x'') :
    Extended sb x (es ++ es') x'' := by
  refine ⟨h'.ok, ?_, ?_, fun p => ?_⟩
  · rw [h'.off_eq, h.off_eq, List.flatMap_append, List.length_append, Nat.add_assoc]
  · rw [h'.contents_eq, h.contents_eq, h.off_eq, splice_splice hx.off_le, List.flatMap_append]
  · grind [h.order, h'.order]

/-- A step after which the file and what is pending are the same. -/
theorem of_same (hok : FileOk sb x') (hoff : x'.off = x.off)
    (hcontents : x'.contents sb = x.contents sb)
    (hpending : ∀ p, (x'.writer p).pending = (x.writer p).pending) : Extended sb x [] x' := by
  refine ⟨hok, hoff, ?_, fun p => ?_⟩
  · exact hcontents.trans (splice_nil _ _).symm
  · rw [hpending p, List.flatMap_nil, List.flatMap_nil, List.append_nil, List.nil_append]

end Extended

theorem pending_setWriter {w : Writer} (hw : w.pending = (x.writer p).pending) (q : Fin N) :
    ((x.setWriter p w).writer q).pending = (x.writer q).pending := by
  by_cases hq : q = p
  · rw [hq, writer_setWriter_self, hw]
  · rw [writer_setWriter_of_ne hq]

/-! ## Every step -/

theorem FileOk.filewrite (h : FileOk sb x) {r : ℤ} (hp : x.writer p = .returned r)
    (buf : List UInt8) : Extended sb x [.call p buf] (x.filewrite p buf) := by
  have hopen : ¬ x.writable = false := by
    rw [h.writable]
    exact Bool.noConfusion
  rw [Shared.filewrite, if_neg hopen]
  refine ⟨h.setWriter (Writer.ok_loop buf 0), rfl, (splice_nil _ _).symm, fun q => ?_⟩
  rw [List.flatMap_singleton, List.flatMap_singleton, Event.askedBy, Event.storedBy,
    List.nil_append]
  by_cases hq : q = p
  · rw [hq, writer_setWriter_self, hp, Writer.pending_loop, List.drop_zero, if_pos rfl]
    rfl
  · rw [writer_setWriter_of_ne hq, if_neg (Ne.symm hq), List.append_nil]

theorem FileOk.beginOp (h : FileOk sb x) (hp : x.writer p = .next buf i)
    (hfs : x.fs.beginOp = .ok fs) :
    Extended sb x [] ({ x with fs }.setWriter p (.inOp buf i)) := by
  have heq := (State.beginOp_ends (E := fun _ => True) trivial).of_ok hfs
  have hsame : SameContents sb x.fs x.ip fs := by
    rw [heq]
    exact ⟨h.wf.congr rfl rfl h.wf.lh_nodup, h.ref_pos, rfl, rfl⟩
  have hi : i < buf.length := by
    have hok := h.writer_ok p
    rw [hp] at hok
    exact hok
  have hok : FileOk sb ({ x with fs }.setWriter p (.inOp buf i)) := (h.withFs hsame).setWriter hi
  have hpending : ∀ q, (({ x with fs }.setWriter p (.inOp buf i)).writer q).pending =
      (x.writer q).pending :=
    pending_setWriter (x := { x with fs }) (congrArg Writer.pending hp).symm
  exact .of_same hok rfl (h.contents_eq hsame).2 hpending

theorem FileOk.writePiece (h : FileOk sb x) (hp : x.writer p = .inOp buf i)
    (hfits : x.off + (piece buf i).length ≤ MAXFILE * BSIZE)
    (hx' : x.writePiece sb dev p buf i = .ok x') :
    Extended sb x [.stored p (piece buf i)] x' := by
  have hi : i < buf.length := by
    have hok := h.writer_ok p
    rw [hp] at hok
    exact hok
  obtain ⟨fs, hregion⟩ := (h.region hi hfits).of_ok hx'
  have hcontents := hregion.contents_eq
  rw [hregion.eq]
  refine ⟨?_, ?_, ?_, fun q => ?_⟩
  · have hok : FileOk sb { x with fs, off := x.off + (piece buf i).length } := by
      refine ⟨hregion.wf, hregion.ref_pos, hregion.regular, ?_, h.writable, h.writer_ok⟩
      show _ ≤ ({ x with fs }.contents sb).length
      rw [hcontents]
      exact length_splice h.off_le
    exact hok.setWriter ⟨hi, rfl⟩
  · rw [List.flatMap_singleton]
    rfl
  · rw [List.flatMap_singleton]
    exact hcontents
  · rw [List.flatMap_singleton, List.flatMap_singleton, Event.askedBy, Event.storedBy,
      List.append_nil]
    by_cases hq : q = p
    · rw [hq, writer_setWriter_self, hp, if_pos rfl]
      exact pieces_drop hi
    · rw [writer_setWriter_of_ne hq, if_neg (Ne.symm hq)]
      rfl

theorem FileOk.endPiece (h : FileOk sb x) {r : Option ℕ} (hp : x.writer p = .wrote buf i r)
    (hx' : x.endPiece p buf i r = some x') : Extended sb x [] x' := by
  have hok := h.writer_ok p
  rw [hp] at hok
  obtain ⟨-, rfl⟩ := hok
  rw [Shared.endPiece] at hx'
  rw [if_neg (not_not.mpr rfl)] at hx'
  cases hx'
  have hsame : SameContents sb x.fs x.ip x.fs.endOp := ⟨h.wf.endOp, h.ref_pos, rfl, rfl⟩
  have hok : FileOk sb ({ x with fs := x.fs.endOp }.setWriter p
      (.loop buf (i + (piece buf i).length))) := (h.withFs hsame).setWriter (Writer.ok_loop _ _)
  have hloop : (Writer.loop buf (i + (piece buf i).length)).pending = (x.writer p).pending := by
    rw [Writer.pending_loop, hp]
    rfl
  exact .of_same hok rfl (h.contents_eq hsame).2
    (pending_setWriter (x := { x with fs := x.fs.endOp }) hloop)

theorem FileOk.other (h : FileOk sb x) {c : Call} (hproper : c.Proper sb x.fs)
    (hspared : x.Spared c) (hfs : c.perform sb dev x.fs = .ok fs) :
    Extended sb x [] { x with fs } := by
  have hsame : SameContents sb x.fs x.ip fs :=
    (Call.perform_sameContents h.wf h.ref_pos h.node_ne hproper hspared).of_ok hfs
  exact .of_same (h.withFs hsame) rfl (h.contents_eq hsame).2 fun _ => rfl

/-- `fileread` moves the offset, at most to the end of the file. -/
theorem FileOk.fileread (h : FileOk sb x) (hn : n < 2 ^ 31)
    (hx' : x.fileread sb dev n = .ok x') : FileOk sb x' := by
  have hE : Lax fun _ => True := fun _ _ _ _ _ => trivial
  have hmax := h.off_le_max
  have hends : Ends (fun _ => True) (x.fileread sb dev n) (FileOk sb) := by
    rw [Shared.fileread]
    apply Ends.ite
    · exact fun _ => .ok h
    · intro _
      apply (State.ilock_ends h.wf hE (.inl trivial) (.inl trivial)).bind
      rintro s₁ ⟨hlocks, hwf₁⟩
      have hcopy : (s₁.icache x.ip).copy = sb.dinode x.fs.disk (x.fs.icache x.ip).inum := by
        rw [hlocks.eq, icache_setInode_self]
      have hdisk : s₁.disk = x.fs.disk := by
        rw [hlocks.eq]
        rfl
      have hvalid : (s₁.icache x.ip).valid = true := by
        rw [hlocks.eq, icache_setInode_self]
      have href : 0 < (s₁.icache x.ip).ref := by
        rw [hlocks.eq, icache_setInode_self]
        exact h.ref_pos
      have hdev : (s₁.icache x.ip).copy.type ≠ T_DEV := by
        rw [hcopy, h.regular]
        decide
      have hoff : x.off ≤ (s₁.icache x.ip).copy.size.toNat := by
        rw [hcopy]
        exact FileOk.length_contents ▸ h.off_le
      have hfit : x.off + n < 2 ^ 32 := by
        have hbound : MAXFILE * BSIZE < 2 ^ 31 := by decide
        omega
      rw [State.readi_eq (hwf₁.noHoles href hvalid) hdev (by omega) hoff hfit]
      apply (State.iunlock_ends trivial).bind
      intro s₂ hunlocks
      have hsame : SameContents sb x.fs x.ip s₂ := by
        have hwf₂ := hwf₁.unlocks hunlocks
        rw [hunlocks.eq, hlocks.eq] at hwf₂ ⊢
        refine ⟨hwf₂, ?_, ?_, rfl⟩
        · rw [icache_setInode_self, icache_setInode_self]
          exact h.ref_pos
        · rw [icache_setInode_self, icache_setInode_self]
      have hcontents : content s₁.disk (s₁.icache x.ip).copy = x.contents sb := by
        rw [hcopy, hdisk]
        rfl
      refine .pure ⟨hsame.wf, hsame.ref_pos, (h.contents_eq hsame).1, ?_, h.writable,
        h.writer_ok⟩
      show advance x.off (some (((content s₁.disk (s₁.icache x.ip).copy).drop x.off).take
        n).length) ≤ ({ x with fs := s₂ }.contents sb).length
      rw [(h.contents_eq hsame).2, hcontents, List.length_take, List.length_drop, advance]
      grind [h.off_le]
  exact hends.of_ok hx'

theorem toOption_eq_some {α : Type} {y : Except Panic α} {a : α} (h : y.toOption = some a) :
    y = .ok a := by
  cases y with
  | ok b => exact congrArg _ (Option.some.inj h)
  | error e => cases h

/-- What a step that writes or leaves the file alone has done. -/
theorem FileOk.step (h : FileOk sb x) {l : ShareLabel N} (hproper : x.Proper sb l)
    (hfits : x.Fits l) (hwrites : OnlyWrites x l) (hx' : x.step sb dev l = some x') :
    Extended sb x (x.event l).toList x' := by
  cases l with
  | filewrite p buf =>
    rw [Shared.step] at hx'
    split at hx'
    · next r hp =>
      cases hx'
      exact h.filewrite hp buf
    · cases hx'
  | beginOp p =>
    rw [Shared.step] at hx'
    split at hx'
    · next buf i hp =>
      obtain ⟨fs, hfs, rfl⟩ := Option.map_eq_some_iff.mp hx'
      exact h.beginOp hp (toOption_eq_some hfs)
    · cases hx'
  | writePiece p =>
    rw [Shared.step] at hx'
    split at hx'
    · next buf i hp =>
      rw [Shared.Fits, hp] at hfits
      rw [Shared.event, hp]
      exact h.writePiece hp hfits (toOption_eq_some hx')
    · cases hx'
  | endOp p =>
    rw [Shared.step] at hx'
    split at hx'
    · next buf i r hp => exact h.endPiece hp hx'
    · cases hx'
  | fileread p n => exact absurd hwrites id
  | other c =>
    obtain ⟨fs, hfs, rfl⟩ := Option.map_eq_some_iff.mp hx'
    exact h.other hproper.1 hproper.2 (toOption_eq_some hfs)

theorem FileOk.next (h : FileOk sb x) {l : ShareLabel N}
    (enabled : (sharers sb dev N).Enabled x l) : FileOk sb ((sharers sb dev N).next x l) := by
  obtain ⟨hproper, hfits, hsome⟩ := enabled
  obtain ⟨x', hx'⟩ := Option.isSome_iff_exists.mp hsome
  show FileOk sb ((x.step sb dev l).getD x)
  rw [hx', Option.getD_some]
  cases l with
  | fileread p n =>
    rw [Shared.step] at hx'
    split at hx'
    · exact h.fileread hproper (toOption_eq_some hx')
    · cases hx'
  | filewrite p buf => exact (h.step hproper hfits trivial hx').ok
  | beginOp p => exact (h.step hproper hfits trivial hx').ok
  | writePiece p => exact (h.step hproper hfits trivial hx').ok
  | endOp p => exact (h.step hproper hfits trivial hx').ok
  | other c => exact (h.step hproper hfits trivial hx').ok

theorem Opened.fileOk (h : x.Opened sb) : FileOk sb x := by
  refine ⟨h.wf, h.ref_pos, h.regular, ?_, h.writable, fun p => ?_⟩
  · rw [h.off_eq]
    exact Nat.zero_le _
  · rw [h.writer_eq p]
    trivial

end Shared

/-- Writers that share an open file lose nothing. From any state that processes get to with
an open file, while nobody reads through it: the offset advances by the number of bytes
stored, the file from the first offset on is all pieces in the order in which they were
stored, and the rest of the file is as it was; for every process the pieces it asked for
are, in order, those stored and those still pending; and the pieces of a buffer are the
whole of it, a single one if it has no more than 1536 bytes. -/
theorem shared_writers_lose_nothing {x₀ x : Shared N} {labels : List (ShareLabel N)}
    (hstart : (sharers sb dev N).Reachable x₀)
    (hrun : ((sharers sb dev N).restrict OnlyWrites).Run x₀ labels x) :
    let es := (sharers sb dev N).log Shared.event x₀ labels
    let stored := es.flatMap Event.bytes
    x.off = x₀.off + stored.length ∧
    ((x.contents sb).drop x₀.off).take (x.off - x₀.off) = stored ∧
    x.contents sb = splice (x₀.contents sb) x₀.off stored ∧
    (∀ p, (x₀.writer p).pending ++ es.flatMap (Event.askedBy p) =
      es.flatMap (Event.storedBy p) ++ (x.writer p).pending) ∧
    (∀ buf, (pieces buf).flatten = buf) ∧
    ∀ buf, buf ≠ [] → buf.length ≤ 1536 → pieces buf = [buf] := by
  intro es stored
  have hok₀ : Shared.FileOk sb x₀ :=
    hstart.invariant (fun _ h => h.fileOk) fun _ _ h enabled => h.next enabled
  have hext : Shared.Extended sb x₀ es x := by
    have hlog := hrun.invariant_log (f := Shared.event) (I := fun y es =>
        Shared.Extended sb x₀ es y) (.refl hok₀) fun y es l hy enabled => by
      obtain ⟨⟨hproper, hfits, hsome⟩, hwrites⟩ := enabled
      obtain ⟨y', hy'⟩ := Option.isSome_iff_exists.mp hsome
      show Shared.Extended sb x₀ _ ((y.step sb dev l).getD y)
      rw [hy', Option.getD_some]
      exact hy.trans hok₀ (hy.ok.step hproper hfits hwrites hy')
    rw [Machine.log_restrict] at hlog
    exact hlog
  refine ⟨hext.off_eq, ?_, hext.contents_eq, hext.order, flatten_pieces, fun buf hne hshort => ?_⟩
  · rw [hext.contents_eq, hext.off_eq, Nat.add_sub_cancel_left, splice, List.append_assoc,
      List.drop_append_of_le_length, List.drop_of_length_le, List.nil_append, List.take_left]
    · exact List.length_take_le _ _
    · rw [List.length_take, Nat.min_eq_left hok₀.off_le]
  · exact pieces_of_short hne hshort

/-- A new file of the small file system, in entry 0. -/
def createFile : List Call :=
  [.beginOp, .ialloc T_FILE, .ilock ⟨0, ninode_pos⟩, .iupdate ⟨0, ninode_pos⟩ 0 0 1,
    .iunlock ⟨0, ninode_pos⟩, .endOp]

/-- Two processes have it open. -/
def newFile : Shared 2 where
  fs := ((system small {}).exec createFile { disk := smallDisk }).getD {}
  ip := ⟨0, ninode_pos⟩

set_option maxRecDepth 10000 in
theorem opened_newFile : newFile.Opened small := by
  have hwf : WellFormed small newFile.fs := by
    obtain ⟨t, ht⟩ : ∃ t, (system small {}).exec createFile { disk := smallDisk } = some t :=
      Option.isSome_iff_exists.mp (by decide +kernel)
    have hfs : newFile.fs = t := congrArg (Option.getD · {}) ht
    rw [hfs]
    exact wellFormed_of_reachable
      ⟨_, _, ⟨image_small, fun _ => rfl, rfl, rfl⟩, Machine.run_of_exec ht⟩
  exact ⟨hwf, by decide +kernel, by decide +kernel, rfl, rfl, fun _ => rfl⟩

/-- Both write. The second one is the first to get the lock. -/
def twoWriters {N : ℕ} (p q : Fin N) : List (ShareLabel N) :=
  [.filewrite p [1, 2, 3], .filewrite q [4, 5], .beginOp p, .beginOp q, .writePiece q,
    .other (.idup ⟨0, ninode_pos⟩), .writePiece p, .endOp q, .endOp p]

set_option maxRecDepth 10000 in
theorem two_writers_share :
    ∃ x, ((sharers small {} 2).restrict OnlyWrites).Run newFile (twoWriters 0 1) x ∧
      x.off = 5 ∧ x.contents small = [4, 5, 1, 2, 3] := by
  obtain ⟨x, hrun, -⟩ := Machine.exists_run_of_exec ((sharers small {} 2).restrict OnlyWrites)
    (twoWriters 0 1) (s := newFile) (P := fun _ => True) (by decide +kernel)
  obtain ⟨hoff, -, hcontents, -⟩ := shared_writers_lose_nothing (.init opened_newFile) hrun
  have hstored : ((sharers small {} 2).log Shared.event newFile (twoWriters 0 1)).flatMap Event.bytes =
      [4, 5, 1, 2, 3] := by
    decide +kernel
  have hempty : newFile.contents small = [] := by
    decide +kernel
  rw [hstored] at hoff hcontents
  rw [hempty] at hcontents
  exact ⟨x, hrun, hoff, hcontents⟩

end Xv6.Fs
