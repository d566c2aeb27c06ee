import Mathlib.Data.Fintype.Prod
import Xv6.Sys.Effect

/-! # The references to files

The `ref` of a file is the number of descriptors for it and of the references that the call under
way holds, and only live slots have descriptors. -/

namespace Xv6.Sys

open Fault Holding Thread
open Fs (NFILE NOFILE)

def State.opens (s : State) (f : Fin NFILE) : Int :=
  Table.count (fun v => decide (v = some f)) fun x : Slot × Fin NOFILE => s.ofile x.1 x.2

structure FilesCounted (p : Slot) (c : Config) : Prop where
  ref : ∀ f, (c.2.file f).ref = c.2.opens f + c.1.count (.file f)
  live : ∀ q fd, c.2.ofile q fd ≠ none → Live (c.2.tab.proc q).state
  caller : Live (c.2.tab.proc p).state

variable {p q : Slot} {R R' : Multiset Res} {s : State} {f : Fin NFILE} {fd : Fin NOFILE}

theorem State.opens_setOfile : (s.setOfile q fd v).opens f =
    s.opens f + Table.ind (v = some f) - Table.ind (s.ofile q fd = some f) := by
  have e : (fun x : Slot × Fin NOFILE => (s.setOfile q fd v).ofile x.1 x.2) =
      Function.update (fun x : Slot × Fin NOFILE => s.ofile x.1 x.2) (q, fd) v := by
    funext ⟨a, b⟩
    by_cases ha : a = q
    · subst ha
      by_cases hb : b = fd
      · simp [State.setOfile, hb]
      · simp [State.setOfile, hb]
    · simp [State.setOfile, ha]
  rw [State.opens, e, Table.count_update]
  rfl

namespace FilesCounted

theorem congr (h : FilesCounted p c) (hs : SameFiles c c') : FilesCounted p c' where
  ref f := by
    rw [State.opens, hs.file, hs.ofile, hs.held]
    exact h.ref f
  live q fd := by
    rw [hs.ofile, hs.tab]
    exact h.live q fd
  caller := by
    rw [hs.tab]
    exact h.caller

/-- A change of a count is matched by what is held. -/
theorem setFile (h : FilesCounted p (R, s))
    (hf : (R'.count (.file f) : Int) - R.count (.file f) = v.ref - (s.file f).ref)
    (ho : ∀ g, g ≠ f → R'.count (.file g) = R.count (.file g)) :
    FilesCounted p (R', s.setFile f v) where
  ref g := by
    change (Function.update s.file f v g).ref = s.opens g + R'.count (.file g)
    have hg := h.ref g
    by_cases e : g = f
    · subst e
      rw [Function.update_self]
      change (s.file g).ref = s.opens g + R.count (.file g) at hg
      omega
    · rw [Function.update_of_ne e, ho g e]
      exact hg
  live := h.live
  caller := h.caller

/-- A change of a descriptor is matched by what is held. -/
theorem setOfile (h : FilesCounted p (R, s)) (hv : v ≠ none → Live (s.tab.proc q).state)
    (hc : ∀ g, (R'.count (.file g) : Int) + Table.ind (v = some g) =
      R.count (.file g) + Table.ind (s.ofile q fd = some g)) :
    FilesCounted p (R', s.setOfile q fd v) where
  ref g := by
    change (s.file g).ref = (s.setOfile q fd v).opens g + R'.count (.file g)
    have hg := h.ref g
    have hc := hc g
    change (s.file g).ref = s.opens g + R.count (.file g) at hg
    rw [State.opens_setOfile]
    omega
  live a b := by
    change (s.setOfile q fd v).ofile a b ≠ none → Live (s.tab.proc a).state
    intro hab
    by_cases ha : a = q
    · subst ha
      by_cases hb : b = fd
      · subst hb
        exact hv (by simpa [State.setOfile] using hab)
      · exact h.live a b (by simpa [State.setOfile, hb] using hab)
    · exact h.live a b (by simpa [State.setOfile, ha] using hab)
  caller := h.caller

theorem file (h : FilesCounted p c) (hs : FileStep p c c') : FilesCounted p c' := by
  cases hs with
  | new h0 | last h0 => exact h.setFile (by simp [h0]) fun g hg => by simp [hg]
  | pipe w h0 => exact h.setFile (by simp [h0, pipeFile]) fun g hg => by simp [hg]
  | dup | drop => exact h.setFile (by simp) fun g hg => by simp [hg]
  | @opened R s fd f k ip omode h0 hfd =>
    have hnew : FilesCounted p ({.file f} + R, s.setFile f (Fs.openFile ip omode 1)) :=
      h.setFile (by simp [h0, Fs.openFile]) fun g hg => by simp [hg]
    have hset : FilesCounted p
        (R, (s.setFile f (Fs.openFile ip omode 1)).setOfile p fd (some f)) := by
      refine hnew.setOfile (fun _ => h.caller) fun g => ?_
      rw [show (s.setFile f (Fs.openFile ip omode 1)).ofile p fd = none from hfd]
      by_cases e : g = f
      · simp [e]
      · simp [e, Ne.symm e]
    exact ⟨hset.ref, hset.live, hset.caller⟩
  | @fdSet R s q fd f hfd hq =>
    refine h.setOfile (fun _ => hq.elim (fun e => e ▸ h.caller) id) fun g => ?_
    rw [hfd]
    by_cases e : g = f
    · simp [e]
    · simp [e, Ne.symm e]
  | @fdClear R s q fd f hfd =>
    refine h.setOfile (absurd rfl) fun g => ?_
    rw [hfd]
    by_cases e : g = f
    · simp [e]
    · simp [e, Ne.symm e]
  | off n => exact ⟨h.ref, h.live, h.caller⟩

theorem table (h : FilesCounted p c) (hs : TableStep p m c c') : FilesCounted p c' := by
  cases hs with
  | tab ht =>
    refine ⟨h.ref, fun q fd hfd => ?_, ?_⟩
    · exact (ht q (h.live q fd hfd)).resolve_right fun hq => hfd (hq.2 fd)
    · exact (ht p h.caller).resolve_right fun hp => hp.1 rfl
  | ltable | ltableFd => exact ⟨h.ref, h.live, h.caller⟩

theorem micro (hs : Micro p m c c') (h : FilesCounted p c) : FilesCounted p c' := by
  cases hs with
  | lock hs | cache hs => exact h.congr hs.sameFiles
  | file hs => exact h.file hs
  | table hs => exact h.table hs

/-- A file to which a reference is held is in use. -/
theorem one_le (h : FilesCounted p ({.file f} + R, s)) : 1 ≤ (s.file f).ref := by
  have hf := h.ref f
  have ho : 0 ≤ s.opens f := Table.count_nonneg ..
  simp only [Multiset.count_add, Multiset.count_singleton_self, Nat.cast_add, Nat.cast_one] at hf
  omega

/-- A file with a descriptor is in use. -/
theorem one_le_of_ofile (h : FilesCounted p (R, s)) (hfd : s.ofile q fd = some f) :
    1 ≤ (s.file f).ref := by
  have hf := h.ref f
  have ho : 0 < s.opens f := Table.count_pos (i := (q, fd)) (by simpa using hfd)
  simp only at hf
  omega

end FilesCounted

end Xv6.Sys
