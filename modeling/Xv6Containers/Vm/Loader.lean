import Xv6Containers.Vm.CopyOut

/-!
# Loading a program

`loaduvm` and the loop of `exec` over the program headers, for any bytes in the
file: they run to their end, store only on pages of the new image and leave an image
that fits its size. The size is that of the largest segment.
-/

namespace Xv6Containers.Vm

open Lib.Memory Lib.Program Prog

variable {k : KernelImage} {total held : Multiset Nat} {m₀ m : Machine} {calls : List FsCall}
  {file : List Byte} {d : PageDir} {sz : Nat}

theorem readi_length {off n : Nat} {bs : List Byte} (h : readi file off n = some bs) :
    bs.length ≤ n := by
  unfold readi Fs.clipped at h
  split at h
  · cases h
  · cases h
    rw [List.length_map, List.length_range]
    exact Nat.min_le_left ..

/-- A store on a page below the size of the image. -/
theorem good_of_loading (hc : Custody k total) (hd : Loading total d sz) (heq : held = d.pages)
    (hwork : Working total m₀ calls held m) {va : Nat} (hva : va < sz) (haligned : va % pgsize = 0)
    {t : Table} (ht : d.table (pdx va) = some t) {bs : List Byte} (hbs : bs.length ≤ pgsize) :
    Store.Good total ⟨d, va, p2v (pteAddr (t.pte (ptx va))), bs⟩ := by
  have hsz := hd.fits.1
  have hlow : va < kernbase := by omega
  have hlt : va < 2 ^ 32 := by
    simp only [kernbase] at hlow
    omega
  have hpte : d.pte va = t.pte (ptx va) := by
    unfold PageDir.pte
    rw [ht]
    rfl
  have hsome : (d.pte va).isSome := (hd.fits.2 va hlow).mpr (by
    simp only [pgsize] at haligned ⊢
    omega)
  obtain ⟨x, hx⟩ := Option.isSome_iff_exists.mp hsome
  constructor
  · exact hlow
  · refine ⟨x, hx, (hd.image.access va hlt x hx).mpr hlow, hd.image.user va hlow x hx,
      not_isTable heq (hwork.nodup hc) hlow hx, ?_⟩
    dsimp only
    rw [← hpte, hx, pteAddr, haligned, Nat.add_zero]
  · dsimp only
    omega

theorem loadBytes_yields (hc : Custody k total) (hd : Loading total d sz) {addr offset filesz : Nat}
    (haddr : addr % pgsize = 0) (hend : addr + filesz ≤ sz) (rounds : Nat) {i : Nat}
    (hi : i % pgsize = 0) (heq : held = d.pages) (hwork : Working total m₀ calls held m) :
    Yields (fun _ => False) (fun r => Working total m₀ calls held r.2)
      ((loadBytes file d addr offset filesz rounds i).run (Machine.step k) m) := by
  induction rounds generalizing i m with
  | zero => exact hwork
  | succ rounds ih =>
    unfold loadBytes
    split
    · next hlt =>
      have hva : uint (addr + i) = addr + i := by
        have hsz := hd.fits.1
        apply uint_eq (by omega)
        simp only [kernbase] at hsz
        omega
      have haligned : (addr + i) % pgsize = 0 := by
        simp only [pgsize] at *
        omega
      rw [hva]
      obtain ⟨t, ht⟩ := Option.isSome_iff_exists.mp (hd.fits.table_isSome (by omega : addr + i < sz))
      rw [ht]
      dsimp only
      generalize hn : (if filesz - i < pgsize then filesz - i else pgsize) = n
      have hle : n ≤ pgsize := by
        split at hn <;> omega
      cases hread : readi file (uint (offset + i)) n with
      | none => exact hwork
      | some bs =>
        have hlen := readi_length hread
        have hgood := good_of_loading hc hd heq hwork (by omega : addr + i < sz) haligned ht
          (by omega : bs.length ≤ pgsize)
        dsimp only
        generalize p2v (pteAddr (t.pte (ptx (addr + i)))) = dst at hgood ⊢
        rw [run_bind_of_ok (Machine.run_memmove ..)]
        have hnext : (i + pgsize) % pgsize = 0 := by
          rw [Nat.add_mod_right]
          exact hi
        split
        · exact ih hnext (hwork.store hgood)
        · exact hwork.store hgood
    · exact hwork

/-- `loaduvm` does not panic for an aligned segment within the image. -/
theorem loaduvm_yields (hc : Custody k total) (hd : Loading total d sz) {addr offset filesz : Nat}
    (haddr : addr % pgsize = 0) (hend : addr + filesz ≤ sz) (heq : held = d.pages)
    (hwork : Working total m₀ calls held m) :
    Yields (fun _ => False) (fun r => Working total m₀ calls held r.2)
      ((loaduvm file d addr offset filesz).run (Machine.step k) m) := by
  unfold loaduvm
  rw [if_neg (not_not.mpr haddr)]
  exact loadBytes_yields hc hd haddr hend _ (Nat.zero_mod _) heq hwork

/-- The size of the segments from the header at `off` on, of which `count` are left. -/
def segmentsSize (file : List Byte) : Nat → Nat → Nat → Nat
  | 0, _, sz => sz
  | count + 1, off, sz =>
    match readProghdr file off with
    | none => sz
    | some ph =>
      if ph.type ≠ elfProgLoad then segmentsSize file count (uint (off + proghdrSize)) sz
      else segmentsSize file count (uint (off + proghdrSize))
        (max sz (uint (ph.vaddr + ph.memsz)))

theorem Proghdr.ofBytes_lt (bs : List Byte) :
    (Proghdr.ofBytes bs).vaddr < 2 ^ 32 ∧ (Proghdr.ofBytes bs).memsz < 2 ^ 32 ∧
      (Proghdr.ofBytes bs).filesz < 2 ^ 32 :=
  ⟨readWord_lt .., readWord_lt .., readWord_lt ..⟩

theorem readProghdr_lt {off : Nat} {ph : Proghdr} (h : readProghdr file off = some ph) :
    ph.vaddr < 2 ^ 32 ∧ ph.memsz < 2 ^ 32 := by
  unfold readProghdr at h
  split at h
  · cases h
  · split at h
    · cases h
      exact ⟨(Proghdr.ofBytes_lt _).1, (Proghdr.ofBytes_lt _).2.1⟩
    · cases h

/-- A segment that does not wrap around ends where its header says. -/
theorem segment_end {vaddr memsz : Nat} (hmem : memsz < 2 ^ 32)
    (hv : vaddr < 2 ^ 32) (h : ¬ uint (vaddr + memsz) < vaddr) : uint (vaddr + memsz) = vaddr + memsz := by
  rw [uint_add] at h ⊢
  omega

theorem loadProgram_yields (hc : Custody k total) (hd : Loading total d sz) (count off : Nat)
    (hwork : Working total m₀ calls d.pages m) :
    Yields (fun _ => False) (fun r => Working total m₀ calls r.1.1.pages r.2 ∧
        Image (· ∈ total) r.1.1 ∧
        ∀ sz', r.1.2 = some sz' → Fits r.1.1 sz' ∧ sz' = segmentsSize file count off sz)
      ((loadProgram file count off d sz).run (Machine.step k) m) := by
  have hbad {d : PageDir} {m : Machine} (himage : Image (· ∈ total) d) {x : Nat}
      (hwork : Working total m₀ calls d.pages m) :
      Yields (fun _ => False) (fun r : (PageDir × Option Nat) × Machine =>
        Working total m₀ calls r.1.1.pages r.2 ∧ Image (· ∈ total) r.1.1 ∧
        ∀ sz', r.1.2 = some sz' → Fits r.1.1 sz' ∧ sz' = x)
        ((pure (d, none) : ExecProg (PageDir × Option Nat)).run (Machine.step k) m) :=
    ⟨hwork, himage, fun _ h => nomatch h⟩
  induction count generalizing off d sz m with
  | zero =>
    refine ⟨hwork, hd.image, ?_⟩
    rintro sz' h
    cases h
    exact ⟨hd.fits, rfl⟩
  | succ count ih =>
    unfold loadProgram segmentsSize
    cases hread : readProghdr file off with
    | none => exact hbad hd.image hwork
    | some ph =>
      obtain ⟨hvaddr, hmemsz⟩ := readProghdr_lt hread
      dsimp only
      split
      · exact ih hd _ hwork
      split
      · exact hbad hd.image hwork
      next hsizes =>
      split
      · exact hbad hd.image hwork
      next hwrap =>
      have htop := segment_end hmemsz hvaddr hwrap
      apply yields_run_bind (allocuvm_yields hc hd _ hwork)
      rintro ⟨d', sz'⟩ t ⟨hwork', himage, hfit⟩
      dsimp only at hwork' himage hfit ⊢
      split
      · exact hbad himage hwork'
      next hne =>
      obtain ⟨hmax, hfits⟩ := hfit hne
      have hd' : Loading total d' sz' := ⟨hfits, himage⟩
      split
      · exact hbad himage hwork'
      next haligned =>
      have hend : ph.vaddr + ph.filesz ≤ sz' := by
        rw [hmax, htop]
        omega
      apply yields_run_bind (loaduvm_yields hc hd' (not_not.mp haligned) hend rfl hwork')
      rintro ok u hu
      cases ok with
      | false => exact hbad himage hu
      | true =>
        rw [← hmax]
        exact ih hd' _ hu

end Xv6Containers.Vm
