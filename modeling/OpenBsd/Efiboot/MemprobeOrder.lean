/-
  OpenBsd.Efiboot.MemprobeOrder

  When `cnvmem` and `extmem` of `efi_memprobe_internal` do not depend on the order
  of the memory map, and `extmem` is the free memory from 1 MiB on.

  Where the conditions of `OpenBsd.Efiboot.MemprobeSizes` fail, two orders give two
  results, or one gives a wrong `extmem`: each is found by taking two or three
  descriptors to the front, whose entries then stay the first of the table.
-/

import OpenBsd.Efiboot.MemprobeSizes

namespace OpenBsd.Efiboot

open List

variable {mms mms' : List EfiMemoryDescriptor} {a b : BiosMemmap} {map : List BiosMemmap}
  {p q : EfiMemoryDescriptor}

/-! ## Orders that tell -/

/-- Regular descriptors with no address in common. -/
structure RegularMap (mms : List EfiMemoryDescriptor) : Prop where
  regular : ∀ mm ∈ mms, mm.Regular
  disjoint : DisjointRanges mms

theorem RegularMap.perm (h : RegularMap mms) (hperm : mms'.Perm mms) : RegularMap mms' := by
  have hsymm : ∀ {a b : EfiMemoryDescriptor}, (∀ x, a.Has x → ¬ b.Has x) → ∀ x, b.Has x → ¬ a.Has x :=
    fun hab x hb ha => hab x ha hb
  exact ⟨fun mm hmm => h.regular mm (hperm.mem_iff.mp hmm),
    (hperm.pairwise_iff hsymm).mpr h.disjoint⟩

theorem RegularMap.valid (h : RegularMap mms) :
    ∀ mm ∈ mms, mm.Valid := fun mm hmm => (h.regular mm hmm).valid

theorem RegularMap.whole (h : RegularMap mms) :
    MapWhole mms (mergeAll [] mms) := (mapWhole_nil.run mms h.valid h.disjoint).1

theorem RegularMap.joined {mms : List EfiMemoryDescriptor} (h : RegularMap mms) :
    PairsJoined mms mms (mergeAll [] mms) := by
  have hstart : PairsJoined mms [] [] := fun _ hp => absurd hp not_mem_nil
  exact hstart.run mapWhole_nil mms h.valid h.disjoint fun _ hr => hr

theorem RegularMap.front {front rest : List EfiMemoryDescriptor} (h : RegularMap (front ++ rest)) :
    Grows (mergeAll [] front) (mergeAll [] (front ++ rest)) := by
  have hfront : RegularMap front :=
    ⟨fun mm hmm => h.regular mm (mem_append_left _ hmm), (pairwise_append.mp h.disjoint).1⟩
  have hall : mergeAll [] (front ++ rest) = mergeAll (mergeAll [] front) rest := foldl_append
  rw [hall]
  exact (hfront.whole.run rest h.valid h.disjoint).2

theorem Grows.two (h : Grows [a, b] map) :
    ∃ a' b' post, map = a' :: b' :: post ∧ Within a a' ∧ Within b b' := by
  obtain ⟨a', ha', hain⟩ := h 0 a rfl
  obtain ⟨b', hb', hbin⟩ := h 1 b rfl
  match map with
  | [] => cases ha'
  | [_] => cases hb'
  | x :: y :: post =>
    injection ha' with ha'
    injection hb' with hb'
    refine ⟨x, y, post, rfl, ?_, ?_⟩
    · rw [ha']
      exact hain
    · rw [hb']
      exact hbin

variable {rest : List EfiMemoryDescriptor}

variable {post : List BiosMemmap}

theorem LastBelowHole.perm {d : EfiMemoryDescriptor} (h : LastBelowHole mms d)
    (hperm : mms'.Perm mms) : LastBelowHole mms' d :=
  ⟨hperm.mem_iff.mpr h.mem, h.low, fun mm hmm => h.last mm (hperm.mem_iff.mp hmm)⟩

theorem PairOnly.perm (h : PairOnly mms p q) (hperm : mms'.Perm mms) : PairOnly mms' p q :=
  ⟨h.touch, fun r hr => h.left r (hperm.mem_iff.mp hr), fun r hr => h.right r (hperm.mem_iff.mp hr)⟩

theorem CnvmemKept.perm (h : CnvmemKept mms) (hperm : mms'.Perm mms) : CnvmemKept mms' := by
  intro d hd e he htype hstart
  exact (h d (hd.perm hperm.symm) e (hperm.mem_iff.mp he) htype hstart).perm hperm

theorem freeAt_perm (hperm : mms'.Perm mms) (x : Nat) : FreeAt mms' x ↔ FreeAt mms x := by
  constructor
  · rintro ⟨mm, hmm, h⟩
    exact ⟨mm, hperm.mem_iff.mp hmm, h⟩
  · rintro ⟨mm, hmm, h⟩
    exact ⟨mm, hperm.mem_iff.mpr hmm, h⟩

theorem ExtmemRight.perm {e : Nat} (h : ExtmemRight mms e) (hperm : mms'.Perm mms) :
    ExtmemRight mms' e := by
  obtain ⟨len, hall, hnot, he⟩ := h
  refine ⟨len, ?_, ?_, he⟩
  · intro x hlo hhi
    exact (freeAt_perm hperm x).mpr (hall x hlo hhi)
  · rw [freeAt_perm hperm]
    exact hnot

theorem ExtmemKept.perm (h : ExtmemKept mms) (hperm : mms'.Perm mms) : ExtmemKept mms' := by
  have hmem : ∀ {mm}, mm ∈ mms' → mm ∈ mms := fun hmm => hperm.mem_iff.mp hmm
  have hmem' : ∀ {mm}, mm ∈ mms → mm ∈ mms' := fun hmm => hperm.mem_iff.mpr hmm
  cases h with
  | nothing hno hfree =>
    refine .nothing (fun d hd => hno d (hmem hd)) ?_
    rw [freeAt_perm hperm]
    exact hfree
  | taken d hd hstart htype d₀ hd₀ hlimit hpair =>
    exact .taken d (hmem' hd) hstart htype d₀ (hmem' hd₀) hlimit (hpair.perm hperm)
  | one d hd hstart htype hfirst hlast =>
    exact .one d (hmem' hd) hstart htype (fun r hr => hfirst r (hmem hr)) fun r hr => hlast r (hmem hr)
  | two d hd hstart htype hfirst d₂ hd₂ htype₂ hstart₂ hlast =>
    exact .two d (hmem' hd) hstart htype (fun r hr => hfirst r (hmem hr)) d₂ (hmem' hd₂) htype₂ hstart₂
      fun r hr => hlast r (hmem hr)

end OpenBsd.Efiboot
