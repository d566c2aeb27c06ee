import Xv6.Fs.LinkCalls

/-! # Link counts over runs

The runs of calls that make no entry in a removed directory keep the link counts right. -/

namespace Xv6.Fs

open Prog Thread LinkTree

variable {s : State} {d : Nat} {inode : Nat → Inode} {t : Ptable} {l : List (Ip × Nat)}
variable {tops : Set Nat}

def FSSIZE : Nat := 1000

/-- The blocks of the directories, with 16 bytes for an entry. -/
def dirBlocks (inode : Nat → Inode) : Nat :=
  ∑ d ∈ inums, ((inode d).entries.length * 16 + (BSIZE - 1)) / BSIZE

/-- The calls that make or remove entries, and those that open, leave and share directories. -/
def Call.onLinks : Call → Bool
  | .sysOpen .. | .sysMkdir _ | .sysMknod _ | .sysLink .. | .sysUnlink _ | .sysChdir _
  | .sysClose _ | .sysExit | .sysFork .. | .sysDup _ => true
  | _ => false

/-- The kernel on a well-formed image, with these calls. The directories of the image are below
`tops`; with `Set.univ` that says nothing. `balloc` panics if the directories do not fit on the
disk. -/
def linkCalls (tops : Set Nat) : LTS State (Slot × Call) where
  init s := ∃ inode tab ltable, Tree tops none inode ∧ dirBlocks inode ≤ FSSIZE ∧
    userinit pinit = some tab ∧ s = .boot inode tab ltable
  next s a := if a.2.onLinks then (calls.next s a).filter fun s => dirBlocks s.inode ≤ FSSIZE
    else none

/-- The number of entries for `i` other than `"."` in directories with links. -/
def linkEntries (inode : Nat → Inode) (i : Nat) : Nat :=
  ∑ d ∈ inums, if (inode d).type = some .T_DIR ∧ 0 < (inode d).nlink then
    (inode d).entries.countP fun de => de.inum = i ∧ de.name ≠ dot else 0

/-! ## Entries -/

/-- There are at most 32 entries in a block. -/
theorem entryCount_lt (h : dirBlocks inode ≤ FSSIZE) : entryCount inode < 2 ^ 15 - 1 := by
  have hle : entryCount inode ≤ 32 * dirBlocks inode := by
    rw [entryCount, dirBlocks, Finset.mul_sum]
    refine Finset.sum_le_sum fun d _ => ?_
    simp only [BSIZE]
    omega
  simp only [FSSIZE] at h
  omega

theorem countP_rest (rest : List Dirent) (hrest : ∀ de ∈ rest, de.inum ≠ 0 → de.name ≠ dot)
    (hi : i ≠ 0) : rest.countP (fun de => de.inum = i ∧ de.name ≠ dot) =
      ((rest.map Dirent.inum).filter (· ≠ 0)).count i := by
  rw [List.count_filter (by simpa using hi), List.count, List.countP_map]
  refine List.countP_congr fun de hde => ?_
  simp only [decide_eq_true_eq, Function.comp_apply, beq_iff_eq, and_iff_left_iff_imp]
  exact fun e => hrest de hde (e ▸ hi)

theorem Dots.countP_eq (h : Dots d x) (hi : i ≠ 0) :
    (x.entries.countP (fun de => de.inum = i ∧ de.name ≠ dot) : Int) =
      (if x.node.up = i then 1 else 0) + x.node.subs.count i := by
  obtain ⟨up, rest, hx, -, hrest⟩ := h
  have hdd : dotdot ≠ dot := by decide
  change _ = _ + ((x.subs : Multiset Nat).count i : Int)
  rw [node_up hx, subs_eq hx, Multiset.coe_count, ← countP_rest rest hrest hi, hx]
  by_cases e : up = i
  · simp [e, hdd, add_comm]
  · simp [e]

/-- The links of the tree are the entries that are counted. -/
theorem Tree.links_eq (h : Tree tops extra inode) (hi : i ≠ 0) :
    links inums (Inode.node ∘ inode) i = linkEntries inode i := by
  rw [links, linkEntries, Nat.cast_sum]
  refine Finset.sum_congr rfl fun d _ => ?_
  have hlive : ((Inode.node ∘ inode) d).Live ↔
      (inode d).type = some .T_DIR ∧ 0 < (inode d).nlink := by
    rw [Int16.lt_iff_toInt_lt]
    exact and_congr_left' Inode.node_kind_eq_dir
  by_cases hd : (inode d).type = some .T_DIR ∧ 0 < (inode d).nlink
  · rw [Node.entries_live (hlive.mpr hd), if_pos hd, (h.dots d hd.1).countP_eq hi]
    rfl
  · rw [Node.entries_not_live fun hl => hd (hlive.mp hl), if_neg hd]
    rfl

/-! ## Runs -/

/-- A call from a state with right link counts leaves such a state. -/
theorem Call.run_sane (hcall : call.onLinks = true) (hl : Live (t.proc p).state) :
    Triple (fun s => Sane t l (Roomy tops) s ∧ Attached s (p, call)) (call.run p)
      fun _ s => ∃ u, Leaves tops u none s := by
  have hret : ∀ {α : Type} {P : State → Prop} {x : Kernel α},
      Triple P x (fun _ => Leaves tops t none) →
      Triple P (do let _ ← x) fun _ s => ∃ u, Leaves tops u none s :=
    fun h => .bind h fun _ => .pure fun _ h => ⟨t, h⟩
  have hK : Ledger (Held l (Tree tops none)) := .held Tree.frees
  have hweak : ∀ s, Sane t l (Roomy tops) s ∧ Attached s (p, call) →
      Held l (Tree tops none) t [] s := fun s h => (h.1.weaken fun _ => And.left).held
  cases call with
  | sysOpen path omode => exact hret sysOpen_sane
  | sysClose fd => exact hret ((sysClose_ledger hK).mono hweak fun _ _ => Held.leaves)
  | sysDup fd => exact hret ((sysDup_ledger hK).mono hweak fun _ _ => Held.leaves)
  | sysMkdir | sysMknod => exact hret create_put_sane
  | sysLink old new => exact hret sysLink_sane
  | sysUnlink path => exact hret (sysUnlink_sane.pre (fun _ => And.left))
  | sysChdir path => exact hret ((sysChdir_sane hl).pre fun s h => (hweak s h).sane)
  | sysFork kalloc copyuvm =>
    exact .bind ((sysFork_ledger hK).pre hweak) fun _ => .pure fun _ h => ⟨_, h.leaves⟩
  | sysExit => exact (sysExit_ledger hK).mono hweak fun _ _ ⟨u, h⟩ => ⟨u, h.leaves⟩
  | _ => cases hcall

/-- What holds between calls. -/
def LinkInv (tops : Set Nat) (s : State) : Prop := ∃ t l, Sane t l (Roomy tops) s

theorem linkInv_boot (hi : Tree tops none inode) (hb : dirBlocks inode ≤ FSSIZE)
    (htab : userinit pinit = some tab) : LinkInv tops (.boot inode tab ltable) := by
  have hzero : ∀ x, 0 < ((State.boot inode tab ltable).icache x).ref → x.val = 0 := by
    intro x hx
    by_contra h0
    simp [State.boot, h0] at hx
  refine ⟨tab, [], counted_boot htab, by simp, ⟨hi, entryCount_lt hb⟩, fun x y hx hy _ => ?_,
    fun x hx hv => ?_⟩
  · exact Fin.ext ((hzero x hx).trans (hzero y hy).symm)
  · simp [State.boot, hzero x hx] at hv

theorem linkInv : (linkCalls tops).Invariant Attached (LinkInv tops) where
  init := by
    rintro _ ⟨inode, tab, ltable, hi, hb, htab, rfl⟩
    exact linkInv_boot hi hb htab
  step := by
    rintro s ⟨p, call⟩ s' ⟨t, l, h⟩ hg hs
    simp only [linkCalls] at hs
    split at hs
    · next hcall =>
      obtain ⟨hs, hb⟩ := Option.filter_eq_some_iff.mp hs
      simp only [calls] at hs
      split at hs
      · next hc =>
        obtain ⟨⟨u, _⟩, hrun, rfl⟩ := Option.map_eq_some_iff.mp hs
        have hl : Live (t.proc p).state := by
          rw [← h.counted.tab]
          exact .inr hc.1
        obtain ⟨t', l', h'⟩ := Call.run_sane hcall hl s u _ ⟨h, hg⟩ hrun
        exact ⟨t', l', h'.counted, h'.pinned,
          ⟨h'.good.inodes, entryCount_lt (of_decide_eq_true hb)⟩, h'.good.uniq, h'.good.valid⟩
      · cases hs
    · cases hs

/-- In runs of calls that make no entry in a removed directory, the link count of every inode in use
is the number of the entries for it other than `"."` in directories with links. -/
theorem nlink_eq_linkEntries (h : (linkCalls tops).ReachedVia Attached s) (i : Nat)
    (hi : (s.inode i).type ≠ none) : (s.inode i).nlink.toInt = linkEntries s.inode i := by
  obtain ⟨t, l, hs⟩ := linkInv.of_reached h
  obtain ⟨htree, -⟩ := hs.good.inodes
  rw [htree.nlink_eq hi, if_neg nofun, add_zero, htree.links_eq (htree.ne_zero hi)]

/-- A disk with a root directory and nothing in it. -/
def emptyDisk : Nat → Inode
  | 1 => ⟨some .T_DIR, 1, newPerm .T_DIR, Users.root.1, [⟨1, dot⟩, ⟨1, dotdot⟩]⟩
  | _ => ⟨none, 0, 0, [], []⟩

theorem tree_emptyDisk : Tree {ROOTINO} none emptyDisk := by
  have hroot : (Inode.node ∘ emptyDisk) 1 = ⟨.dir, 1, 1, 0⟩ := rfl
  have hother : ∀ i, i ≠ 1 → (Inode.node ∘ emptyDisk) i = ⟨.free, 0, 0, 0⟩ := by
    intro i hi
    have h : emptyDisk i = ⟨none, 0, 0, [], []⟩ := by
      unfold emptyDisk
      split
      · exact absurd rfl hi
      · rfl
    rw [Function.comp_apply, h]
    rfl
  have hlive : ∀ i, ((Inode.node ∘ emptyDisk) i).kind ≠ .free → i = 1 := by
    intro i hi
    by_contra e
    rw [hother i e] at hi
    exact hi rfl
  have hlinks : ∀ i, links inums (Inode.node ∘ emptyDisk) i = if 1 = i then 1 else 0 := by
    intro i
    rw [links, Finset.sum_eq_single_of_mem 1 (by decide), hroot]
    · by_cases e : 1 = i <;> simp [Node.entries, Node.Live, e]
    · intro d _ hd
      rw [hother d hd]
      rfl
  refine ⟨⟨fun i hi => ?_, fun i hi => ?_, fun i hi => ?_, ⟨?_, ?_⟩, fun d i hd hm => ?_,
    fun i hi h1 => ?_, fun d hd hdead => ?_, fun d hd => ⟨0, ?_⟩, by simp⟩, fun d hd => ?_⟩
  · rw [hlive i hi]
    decide
  · rw [hlinks, hlive i hi, hroot]
    rfl
  · rw [hlinks, if_neg]
    rintro rfl
    rw [hroot] at hi
    cases hi
  · rw [ROOTINO, hroot]
    decide
  · rw [ROOTINO, hroot]
  · rw [hlive d (by rw [hd.1]; decide), hroot] at hm
    simp at hm
  · exact absurd (hlive i (by rw [hi.1]; decide)) h1
  · rw [hlive d (by rw [hd]; decide), hroot] at hdead
    exact absurd (by decide) hdead
  · exact hlive d (by rw [hd.1]; decide)
  · have h1 := hlive d (by simp [Inode.node_kind_eq_dir.mpr hd])
    rw [h1]
    exact ⟨1, [], rfl, by decide, by simp⟩

def emptyBoot : State :=
  .boot emptyDisk ((userinit pinit).getD pinit) (Users.append .empty Users.root Users.zeros)

theorem init_emptyBoot : (linkCalls {ROOTINO}).init emptyBoot := by
  obtain ⟨tab, htab⟩ := Option.isSome_iff_exists.mp (show (userinit pinit).isSome by decide +kernel)
  exact ⟨emptyDisk, tab, _, tree_emptyDisk, by decide +kernel, htab, by
    rw [emptyBoot, htab]; rfl⟩

/-- A child is in the directory `"d"` that has been removed, and has gone from there to the root
directory to make `"h"`. The file first made in `"d"` is `"/g"`. -/
theorem nlink_eq_linkEntries_removed : ∃ s, (linkCalls {ROOTINO}).ReachedVia Attached s ∧
    ((s.inode 1).nlink.toInt = 1 ∧ linkEntries s.inode 1 = 1) ∧
    ((s.inode 2).nlink.toInt = 0 ∧ linkEntries s.inode 2 = 0) ∧
    ((s.inode 3).nlink.toInt = 1 ∧ linkEntries s.inode 3 = 1) := by
  obtain ⟨s, hs, h⟩ := LTS.exists_reachedVia_of_run (M := linkCalls {ROOTINO}) (C := Attached)
    [(0, .sysMkdir [100]), (0, .sysOpen [100, 47, 102] (O_CREATE ||| O_RDWR)),
      (0, .sysLink [100, 47, 102] [103]), (0, .sysFork true true), (1, .sysChdir [100]),
      (1, .sysUnlink [102]), (1, .sysUnlink [47, 100]),
      (1, .sysOpen [46, 46, 47, 104] (O_CREATE ||| O_RDWR)), (0, .sysClose 0)]
    (fun s => decide ((s.inode 1).type ≠ none ∧ (s.inode 2).type ≠ none ∧
      (s.inode 3).type ≠ none ∧ (s.inode 1).nlink.toInt = 1 ∧ (s.inode 2).nlink.toInt = 0 ∧
      (s.inode 3).nlink.toInt = 1)) init_emptyBoot (by decide +kernel) (by decide +kernel)
  obtain ⟨h₁, h₂, h₃, e₁, e₂, e₃⟩ := of_decide_eq_true h
  have c₁ := nlink_eq_linkEntries hs 1 h₁
  have c₂ := nlink_eq_linkEntries hs 2 h₂
  have c₃ := nlink_eq_linkEntries hs 3 h₃
  exact ⟨s, hs, ⟨e₁, by omega⟩, ⟨e₂, by omega⟩, ⟨e₃, by omega⟩⟩

/-- A process removes the directory it is in and makes the file `"f"` there. The file has the link
count 1, and no directory with links has an entry for it. -/
theorem create_in_removed : ∃ s, (linkCalls {ROOTINO}).Reached s ∧ (s.inode 3).type = some .T_FILE ∧
    (s.inode 3).nlink.toInt = 1 ∧ linkEntries s.inode 3 = 0 := by
  obtain ⟨s, hs, h⟩ := LTS.exists_reached_of_run (M := linkCalls {ROOTINO})
    [(0, .sysMkdir [100]), (0, .sysChdir [100]), (0, .sysUnlink [47, 100]),
      (0, .sysOpen [102] (O_CREATE ||| O_RDWR))]
    (fun s => decide ((s.inode 3).type = some .T_FILE ∧ (s.inode 3).nlink.toInt = 1 ∧
      linkEntries s.inode 3 = 0)) init_emptyBoot (by decide +kernel)
  exact ⟨s, hs, of_decide_eq_true h⟩

/-- From an image whose directories are below the root, the live directories, those with links, stay
a tree below the root in these runs: going up from each leads to the root, each starts with an entry
for itself and one for the directory above, which is live and has one entry for it, and no other
live directory has one. An entry is for an inode in use, and a removed directory is empty. -/
theorem directories_tree (h : (linkCalls {ROOTINO}).ReachedVia Attached s) (d : Nat)
    (hd : (s.inode d).type = some .T_DIR) : Dots d (s.inode d) ∧
    (¬ (s.inode d).node.Live → (s.inode d).subs = []) ∧ ((s.inode d).node.Live →
      (∃ n, (fun a => (s.inode a).node.up)^[n] d = ROOTINO) ∧
      (∀ i ∈ (s.inode d).subs, (s.inode i).type ≠ none ∧
        ((s.inode i).type = some .T_DIR → i ≠ ROOTINO ∧ (s.inode i).node.up = d)) ∧
      (d ≠ ROOTINO → (s.inode (s.inode d).node.up).node.Live ∧
        (s.inode (s.inode d).node.up).subs.count d = 1)) := by
  obtain ⟨t, l, hs⟩ := linkInv.of_reached h
  obtain ⟨⟨hl, hdots⟩, -⟩ := hs.good.inodes
  refine ⟨hdots d hd, fun hn => ?_, fun hv => ⟨hl.climbs d hv,
    fun i hi => ⟨fun hfree => ?_, fun hdir => ?_⟩, fun hr => ?_⟩⟩
  · simpa [Inode.node] using hl.dead d (Inode.node_kind_eq_dir.mpr hd) hn
  · exact hl.kind_of_mem hv hi (Inode.node_kind_eq_free.mpr hfree)
  · exact hl.parent d i hv hi (Inode.node_kind_eq_dir.mpr hdir)
  · obtain ⟨hup, hc⟩ := hl.once d hv hr
    exact ⟨hup, (Multiset.coe_count ..).symm.trans hc⟩

/-- The directories `"d"` and `"d/e"` are made, a file is linked into both and the one in `"d"` is
removed. -/
theorem directories_tree_three : ∃ s, (linkCalls {ROOTINO}).ReachedVia Attached s ∧
    (s.inode 3).node.up = 2 ∧ (s.inode 2).subs.count 3 = 1 ∧
    ∃ n, (fun a => (s.inode a).node.up)^[n] 3 = ROOTINO := by
  obtain ⟨s, hs, h⟩ := LTS.exists_reachedVia_of_run (M := linkCalls {ROOTINO}) (C := Attached)
    [(0, .sysMkdir [100]), (0, .sysMkdir [100, 47, 101]),
      (0, .sysOpen [100, 47, 102] (O_CREATE ||| O_RDWR)),
      (0, .sysLink [100, 47, 102] [100, 47, 101, 47, 103]), (0, .sysUnlink [100, 47, 102])]
    (fun s => decide ((s.inode 3).type = some .T_DIR ∧ (s.inode 3).node.Live ∧
      (s.inode 3).node.up = 2)) init_emptyBoot (by decide +kernel) (by decide +kernel)
  obtain ⟨ht, hl, hup⟩ := of_decide_eq_true h
  obtain ⟨hclimbs, -, honce⟩ := (directories_tree hs 3 ht).2.2 hl
  exact ⟨s, hs, hup, hup ▸ (honce (by decide)).2, hclimbs⟩

end Xv6.Fs
