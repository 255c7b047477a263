import Xv6Containers.Vm.Custody
import Xv6Containers.Vm.Supply

/-!
# copyout

`copyout` stores its bytes page by page until it comes to a page that is not a
present user page, and returns `0` if there is none. It looks at the page-table
entry of every page it comes to; `uva2ka` does not test whether the page table is
there, so a page without one makes it read an entry at address 0.
-/

namespace Xv6Containers.Vm

open Lib.Memory Lib.Program Prog

variable {k : KernelImage} {d : PageDir} {va : Nat} {p : List Byte} {m t : Machine}

/-- The address is on a present page for the user. -/
def UserAt (d : PageDir) (va : Nat) : Prop := ∃ x, d.pte va = some x ∧ x.user = true

/-- Where the kernel finds the byte at an address of the image. -/
def kaddr (d : PageDir) (va : Nat) : Nat := p2v (pteAddr (d.pte va)) + va % pgsize

/-- The single bytes of a list of stores. -/
def writes (stores : List Store) : List (Nat × Byte) :=
  stores.flatMap fun st => (List.range st.bs.length).map fun i => (st.dst + i, st.bs.getD i 0)

/-- The memory after a list of stores. -/
def applied (mem : Mem) (stores : List Store) : Mem :=
  stores.foldl (fun mem st => blit mem st.dst st.bs) mem

/-- The bytes go to one user page of the directory, to the place of their address. -/
structure Store.Placed (d : PageDir) (st : Store) : Prop where
  dir : st.d = d
  lt : st.va < 2 ^ 32
  user : UserAt d st.va
  dst : st.dst = kaddr d st.va
  length : st.va % pgsize + st.bs.length ≤ pgsize

/-- What `copyout` does: it stores the first `j` bytes where they belong; then it is at the end,
or the next byte is not on a user page. -/
structure Copies (d : PageDir) (va : Nat) (p : List Byte) (m : Machine) (r : Int) (t : Machine)
    (j : Nat) (stores : List Store) : Prop where
  le : j ≤ p.length
  user : ∀ i < j, UserAt d (uint (va + i))
  result : r = 0 ∧ j = p.length ∨ r = -1 ∧ j < p.length ∧ ¬ UserAt d (uint (va + j))
  state : t = { m with mem := applied m.mem stores, stores := m.stores ++ stores }
  placed : ∀ st ∈ stores, st.Placed d
  bytes : writes stores = (List.range j).map fun i : Nat => (kaddr d (uint (va + i)), p.getD i 0)

/-- Every page has a page table, up to the first that is not a user page. -/
def Tabled (d : PageDir) (va len : Nat) : Prop :=
  ∀ i < len, (∀ j < i, UserAt d (uint (va + j))) → (d.table (pdx (uint (va + i)))).isSome

/-! ## One page -/

/-- The pages for the user lie in physical memory. -/
def InMemory (d : PageDir) : Prop :=
  ∀ v < 2 ^ 32, ∀ x, d.pte v = some x → x.user = true → x.page < physTop / pgsize

variable {v page len : Nat}

theorem userAt_congr {w : Nat} (h : SamePage v w) : UserAt d v ↔ UserAt d w := by
  unfold UserAt
  rw [pte_eq_of_samePage h]

theorem table_congr {w : Nat} (h : SamePage v w) : d.table (pdx v) = d.table (pdx w) := by
  rw [h.of_pdx_ptx.1]

theorem p2v_eq (h : page < physTop / pgsize) : p2v page = page * pgsize + kernbase := by
  apply uint_eq (by omega)
  simp only [physTop, pgsize, kernbase] at *
  omega

theorem p2v_ne_zero (h : page < physTop / pgsize) : p2v page ≠ 0 := by
  rw [p2v_eq h]
  simp only [kernbase]
  omega

/-- An address on a page of physical memory does not wrap around. -/
theorem uint_p2v (h : page < physTop / pgsize) (va : Nat) :
    uint (p2v page + va % pgsize) = p2v page + va % pgsize := by
  have hlt : p2v page + va % pgsize < 2 ^ 32 := by
    rw [p2v_eq h]
    simp only [physTop, pgsize, kernbase] at *
    omega
  apply uint_eq _ hlt
  omega

theorem uint_lt (x : Int) : uint x < 2 ^ 32 := by
  simp only [uint]
  omega

theorem uint_add (a b : Nat) : uint (a + b) = (a + b) % 2 ^ 32 := by
  simp only [uint]
  omega

/-- The page of `va`. -/
theorem samePage_rounddown (va : Nat) : SamePage (pgrounddown va) va := by
  simp only [SamePage, pgrounddown, pgsize]
  omega

/-- Where the page table is there, `uva2ka` finds the page if it is for the user. -/
theorem uva2ka_run (h : (d.table (pdx v)).isSome) (m : Machine) :
    (uva2ka d v).run (Machine.step k) m = .ok (match d.pte v with
      | none => 0
      | some x => if x.user = false then 0 else p2v x.page, m) := by
  obtain ⟨t, ht⟩ := Option.isSome_iff_exists.mp h
  have hpte : d.pte v = t.pte (ptx v) := by
    unfold PageDir.pte
    rw [ht]
    rfl
  unfold uva2ka loadPte
  rw [ht, hpte, run_bind_of_ok rfl]
  change (match t.pte (ptx v) with
    | none => pure 0
    | some x => if x.user = false then pure 0 else pure (p2v x.page) : ExecProg Nat).run _ m = _
  cases t.pte (ptx v) with
  | none => rfl
  | some x =>
    dsimp only
    split <;> rfl

/-- Where it is not, the entry at address 0 decides; what it points to is no page of the image. -/
theorem uva2ka_null (h : d.table (pdx v) = none) (m : Machine) :
    Yields (fun e => e = .wild) (fun r => r = (0, m)) ((uva2ka d v).run (Machine.step k) m) := by
  unfold uva2ka loadPte
  rw [run_bind, h]
  dsimp only
  rw [Machine.run_nullPte]
  cases m.zero with
  | none => rfl
  | some x =>
    dsimp only
    split
    · rfl
    · next hcond =>
      change Yields _ _ ((if x.user = false then pure 0 else pure (p2v x.page) :
        ExecProg Nat).run _ m)
      split
      · rfl
      · next huser =>
        have hzero : p2v x.page = 0 := by
          by_contra hne
          exact hcond ⟨by simpa using huser, hne⟩
        rw [hzero]
        rfl

theorem uva2ka_meets (m : Machine) :
    (uva2ka d v).Meets (Machine.step k) (fun o _ => o ≠ .nullPte) m ↔
      (d.table (pdx v)).isSome := by
  unfold uva2ka loadPte
  rw [meets_bind]
  cases ht : d.table (pdx v) with
  | none =>
    simp only [Option.isSome_none, Bool.false_eq_true, iff_false]
    rintro ⟨hnull, -⟩
    exact hnull.1 rfl
  | some t =>
    simp only [Option.isSome_some, iff_true]
    refine ⟨trivial, fun x u _ => ?_⟩
    cases x with
    | none => trivial
    | some x =>
      dsimp only
      split <;> trivial

/-! ## One round -/

/-- The number of bytes that one round of `copyout` stores. -/
def chunk (va len : Nat) : Nat := min len (pgsize - va % pgsize)

theorem chunk_le (va len : Nat) : chunk va len ≤ len := Nat.min_le_left ..

theorem chunk_pos (va : Nat) (h : 0 < len) : 0 < chunk va len := by
  have hmod : va % pgsize < pgsize := Nat.mod_lt _ (by decide)
  unfold chunk
  omega

/-- The bytes of one round are on one page. -/
theorem chunk_page {i : Nat} (hva : va < 2 ^ 32) (hi : i < chunk va len) :
    uint (va + i) = va + i ∧ SamePage (va + i) va ∧ (va + i) % pgsize = va % pgsize + i := by
  unfold chunk at hi
  simp only [uint_add, SamePage, pgsize] at *
  omega

/-- The next round starts on the next page. -/
theorem chunk_next (h : chunk va len < len) :
    uint (pgrounddown va + pgsize) = uint (va + chunk va len) := by
  unfold chunk at *
  simp only [uint_add, pgrounddown, pgsize] at *
  omega

theorem userAt_chunk {i : Nat} (hva : va < 2 ^ 32) (hi : i < chunk va len) :
    UserAt d (uint (va + i)) ↔ UserAt d va := by
  obtain ⟨huint, hsame, -⟩ := chunk_page hva hi
  rw [huint]
  exact userAt_congr hsame

/-- The machine after one round. -/
def Machine.copied (m : Machine) (d : PageDir) (va : Nat) (bs : List Byte) : Machine :=
  { m with mem := blit m.mem (kaddr d va) bs, stores := m.stores ++ [⟨d, va, kaddr d va, bs⟩] }

theorem copyoutLoop_nil (d : PageDir) (rounds va : Nat) : copyoutLoop d rounds va [] = pure 0 := by
  cases rounds <;> rfl

/-- One round, once `uva2ka` has returned. -/
def roundTail (d : PageDir) (rounds va : Nat) (p : List Byte) (pa0 : Nat) : ExecProg Int :=
  if pa0 = 0 then return -1
  else do
    memmove d va (uint (pa0 + va % pgsize)) (p.take (chunk va p.length))
    copyoutLoop d rounds (uint (va + chunk va p.length)) (p.drop (chunk va p.length))

theorem roundTail_ne (rounds : Nat) {pa0 dst : Nat} (hne : pa0 ≠ 0)
    (hdst : uint (pa0 + va % pgsize) = dst) : roundTail d rounds va p pa0 =
      (memmove d va dst (p.take (chunk va p.length)) >>= fun _ =>
        copyoutLoop d rounds (uint (va + chunk va p.length)) (p.drop (chunk va p.length))) := by
  rw [roundTail, if_neg hne, hdst]

theorem copyoutLoop_succ (d : PageDir) (rounds va : Nat) (hp : p ≠ []) :
    copyoutLoop d (rounds + 1) va p =
      (uva2ka d (pgrounddown va) >>= roundTail d rounds va p) := by
  have hoff : va - pgrounddown va = va % pgsize := by
    simp only [pgrounddown, pgsize]
    omega
  have hoff' : (va : Int) - pgrounddown va = va % pgsize := by
    simp only [pgrounddown, pgsize]
    omega
  have hn : (if p.length < pgsize - va % pgsize then p.length else pgsize - va % pgsize) =
      chunk va p.length := by
    unfold chunk
    split <;> omega
  rw [copyoutLoop, if_neg hp]
  dsimp only
  rw [hoff, hoff', hn]
  refine congrArg _ (funext fun pa0 => ?_)
  unfold roundTail
  split
  · rfl
  · refine congrArg _ (funext fun _ => ?_)
    by_cases hend : chunk va p.length < p.length
    · rw [chunk_next hend]
    · rw [List.drop_eq_nil_of_le (by omega), copyoutLoop_nil, copyoutLoop_nil]

section Round

variable (rounds : Nat) (hp : p ≠ [])

include hp

/-- A round on a user page. -/
theorem round_user (hmem : InMemory d) (hva : va < 2 ^ 32) (huser : UserAt d va) (m : Machine) :
    (copyoutLoop d (rounds + 1) va p).run (Machine.step k) m =
      (copyoutLoop d rounds (uint (va + chunk va p.length)) (p.drop (chunk va p.length))).run
        (Machine.step k) (m.copied d va (p.take (chunk va p.length))) ∧
    ((copyoutLoop d (rounds + 1) va p).Meets (Machine.step k) (fun o _ => o ≠ .nullPte) m ↔
      (copyoutLoop d rounds (uint (va + chunk va p.length)) (p.drop (chunk va p.length))).Meets
        (Machine.step k) (fun o _ => o ≠ .nullPte) (m.copied d va (p.take (chunk va p.length)))) := by
  obtain ⟨x, hx, hxuser⟩ := huser
  have hpage := hmem va hva x hx hxuser
  have htable : (d.table (pdx (pgrounddown va))).isSome := by
    rw [table_congr (samePage_rounddown va)]
    exact table_isSome_of_pte (by simp [hx])
  have hfind : (uva2ka d (pgrounddown va)).run (Machine.step k) m = .ok (p2v x.page, m) := by
    rw [uva2ka_run htable, pte_eq_of_samePage (samePage_rounddown va), hx]
    simp [hxuser]
  have hdst : uint (p2v x.page + va % pgsize) = kaddr d va := by
    rw [kaddr, hx, pteAddr]
    exact uint_p2v hpage va
  have htail := roundTail_ne (d := d) (p := p) rounds (p2v_ne_zero hpage) hdst
  rw [copyoutLoop_succ d rounds va hp]
  unfold Machine.copied
  generalize copyoutLoop d rounds (uint (va + chunk va p.length)) (p.drop (chunk va p.length)) = rest
    at htail ⊢
  generalize p.take (chunk va p.length) = bs at htail ⊢
  generalize kaddr d va = dst at htail ⊢
  generalize p2v x.page = pa0 at htail hfind
  have hmove : (roundTail d rounds va p pa0).run (Machine.step k) m = rest.run (Machine.step k)
      { m with mem := blit m.mem dst bs, stores := m.stores ++ [⟨d, va, dst, bs⟩] } := by
    rw [htail, run_bind_of_ok (Machine.run_memmove ..)]
  constructor
  · rw [run_bind_of_ok hfind]
    exact hmove
  · rw [meets_bind, uva2ka_meets, hfind, and_iff_right htable]
    constructor
    · intro hrest
      have hnext := hrest _ _ rfl
      rw [htail, meets_bind] at hnext
      exact hnext.2 _ _ (Machine.run_memmove ..)
    · rintro hnext a t hat
      cases hat
      rw [htail, meets_bind, Machine.run_memmove]
      refine ⟨⟨(fun h => nomatch h), fun _ _ _ => trivial⟩, ?_⟩
      rintro a t hat
      cases hat
      exact hnext

/-- A round on a page that is not for the user. -/
theorem round_stop (htable : (d.table (pdx va)).isSome) (hnot : ¬ UserAt d va) (m : Machine) :
    (copyoutLoop d (rounds + 1) va p).run (Machine.step k) m = .ok (-1, m) ∧
    (copyoutLoop d (rounds + 1) va p).Meets (Machine.step k) (fun o _ => o ≠ .nullPte) m := by
  have htable' : (d.table (pdx (pgrounddown va))).isSome := by
    rwa [table_congr (samePage_rounddown va)]
  have hfind : (uva2ka d (pgrounddown va)).run (Machine.step k) m = .ok (0, m) := by
    rw [uva2ka_run htable', pte_eq_of_samePage (samePage_rounddown va)]
    cases hx : d.pte va with
    | none => rfl
    | some x =>
      dsimp only
      rw [if_pos]
      cases huser : x.user with
      | false => rfl
      | true => exact absurd ⟨x, hx, huser⟩ hnot
  rw [copyoutLoop_succ d rounds va hp]
  constructor
  · rw [run_bind_of_ok hfind]
    rfl
  · rw [meets_bind, uva2ka_meets, hfind]
    refine ⟨htable', ?_⟩
    rintro a t hat
    cases hat
    trivial

/-- A round on a page without a page table. -/
theorem round_null (htable : d.table (pdx va) = none) (m : Machine) :
    Yields (fun e => e = .wild) (fun r => r = (-1, m))
      ((copyoutLoop d (rounds + 1) va p).run (Machine.step k) m) ∧
    ¬ (copyoutLoop d (rounds + 1) va p).Meets (Machine.step k) (fun o _ => o ≠ .nullPte) m := by
  have htable' : d.table (pdx (pgrounddown va)) = none := by
    rwa [table_congr (samePage_rounddown va)]
  rw [copyoutLoop_succ d rounds va hp]
  constructor
  · apply yields_run_bind (uva2ka_null htable' m)
    rintro a t hat
    cases hat
    rfl
  · rw [meets_bind, uva2ka_meets, htable']
    exact fun h => nomatch h.1

end Round

/-! ## The loop -/

variable {len : Nat}

theorem tabled_of_stop (hva : va < 2 ^ 32) (htable : (d.table (pdx va)).isSome)
    (hnot : ¬ UserAt d va) : Tabled d va len := by
  intro i _ hbefore
  cases i with
  | zero =>
    rw [uint_eq (by omega) hva]
    exact htable
  | succ i =>
    have hfirst := hbefore 0 (by omega)
    rw [uint_eq (by omega) hva] at hfirst
    exact absurd hfirst hnot

theorem not_tabled_of_null (hva : va < 2 ^ 32) (hlen : 0 < len) (htable : d.table (pdx va) = none) :
    ¬ Tabled d va len := by
  intro h
  have hfirst := h 0 hlen (fun j hj => absurd hj (by omega))
  rw [uint_eq (by omega) hva, htable] at hfirst
  cases hfirst

theorem uint_uint_add (a b c : Nat) : uint (uint (a + b) + c) = uint (a + (b + c : Nat)) := by
  simp only [uint]
  omega

/-- The pages of a range are those of its first round and the rest. -/
theorem tabled_chunk (hva : va < 2 ^ 32) (huser : UserAt d va) :
    Tabled d va len ↔ Tabled d (uint (va + chunk va len)) (len - chunk va len) := by
  have hfirst : ∀ j < chunk va len, UserAt d (uint (va + j)) := fun j hj =>
    (userAt_chunk hva hj).mpr huser
  constructor
  · intro h i hi hbefore
    rw [uint_uint_add]
    apply h (chunk va len + i) (by omega)
    intro j hj
    by_cases hin : j < chunk va len
    · exact hfirst j hin
    · obtain ⟨c, rfl⟩ := Nat.exists_eq_add_of_le (Nat.le_of_not_lt hin)
      rw [← uint_uint_add]
      exact hbefore c (by omega)
  · intro h i hi hbefore
    by_cases hin : i < chunk va len
    · obtain ⟨huint, hsame, -⟩ := chunk_page hva hin
      rw [huint, table_congr hsame]
      obtain ⟨x, hx, -⟩ := huser
      exact table_isSome_of_pte (by simp [hx])
    · obtain ⟨c, rfl⟩ := Nat.exists_eq_add_of_le (Nat.le_of_not_lt hin)
      rw [← uint_uint_add]
      apply h c (by omega)
      intro j hj
      rw [uint_uint_add]
      exact hbefore _ (by omega)

/-- `copyout` reads only entries of page tables that are there, exactly if they are. -/
theorem copyoutLoop_meets (hmem : InMemory d) {rounds : Nat} (hva : va < 2 ^ 32)
    (hrounds : p.length ≤ rounds) (m : Machine) :
    (copyoutLoop d rounds va p).Meets (Machine.step k) (fun o _ => o ≠ .nullPte) m ↔
      Tabled d va p.length := by
  induction rounds generalizing va p m with
  | zero =>
    have hnil : p = [] := List.length_eq_zero_iff.mp (by omega)
    subst hnil
    exact ⟨fun _ i hi => absurd hi (by simp), fun _ => trivial⟩
  | succ rounds ih =>
    by_cases hp : p = []
    · subst hp
      rw [copyoutLoop_nil]
      exact ⟨fun _ i hi => absurd hi (by simp), fun _ => trivial⟩
    · have hlen : 0 < p.length := List.length_pos_iff.mpr hp
      by_cases huser : UserAt d va
      · rw [(round_user rounds hp hmem hva huser m).2, tabled_chunk hva huser]
        have hpos := chunk_pos va hlen
        have hleft : (p.drop (chunk va p.length)).length ≤ rounds := by
          rw [List.length_drop]
          omega
        rw [ih (uint_lt _) hleft, List.length_drop]
      · cases htable : d.table (pdx va) with
        | none =>
          have hnot := not_tabled_of_null hva hlen htable
          have hround := (round_null (k := k) rounds hp htable m).2
          exact ⟨fun h => absurd h hround, fun h => absurd h hnot⟩
        | some t =>
          have hsome : (d.table (pdx va)).isSome := by simp [htable]
          exact ⟨fun _ => tabled_of_stop hva hsome huser,
            fun _ => (round_stop rounds hp hsome huser m).2⟩

theorem writes_cons (st : Store) (stores : List Store) :
    writes (st :: stores) =
      ((List.range st.bs.length).map fun i => (st.dst + i, st.bs.getD i 0)) ++ writes stores := rfl

/-- The bytes of one round go where they belong. -/
theorem writes_chunk (hva : va < 2 ^ 32) :
    ((List.range (p.take (chunk va p.length)).length).map fun i =>
      (kaddr d va + i, (p.take (chunk va p.length)).getD i 0)) =
    (List.range (chunk va p.length)).map fun i : Nat => (kaddr d (uint (va + i)), p.getD i 0) := by
  rw [List.length_take, Nat.min_eq_left (chunk_le ..)]
  apply List.map_congr_left
  intro i hi
  rw [List.mem_range] at hi
  obtain ⟨huint, hsame, hmod⟩ := chunk_page hva hi
  have haddr : kaddr d (uint (va + i)) = kaddr d va + i := by
    rw [huint, kaddr, kaddr, pte_eq_of_samePage hsame, hmod, Nat.add_assoc]
  rw [haddr, List.getD_eq_getElem?_getD, List.getElem?_take_of_lt hi, ← List.getD_eq_getElem?_getD]

theorem Copies.stop (hva : va < 2 ^ 32) (hp : p ≠ []) (hnot : ¬ UserAt d va) (m : Machine) :
    Copies d va p m (-1) m 0 [] where
  le := Nat.zero_le _
  user := fun i hi => absurd hi (by omega)
  result := by
    right
    refine ⟨rfl, List.length_pos_iff.mpr hp, ?_⟩
    rwa [uint_eq (by omega) hva]
  state := by simp [applied]
  placed := fun _ h => nomatch h
  bytes := rfl

theorem Copies.cons (hva : va < 2 ^ 32) (huser : UserAt d va) {r : Int} {j : Nat}
    {stores : List Store}
    (h : Copies d (uint (va + chunk va p.length)) (p.drop (chunk va p.length))
      (m.copied d va (p.take (chunk va p.length))) r t j stores) :
    Copies d va p m r t (chunk va p.length + j)
      (⟨d, va, kaddr d va, p.take (chunk va p.length)⟩ :: stores) := by
  have hle := h.le
  have hchunk := chunk_le va p.length
  have hfirst : ∀ i < chunk va p.length, UserAt d (uint (va + i)) := fun i hi =>
    (userAt_chunk hva hi).mpr huser
  have hwrites := writes_chunk (d := d) (p := p) hva
  have hroom : va % pgsize + chunk va p.length ≤ pgsize := by
    have hmod : va % pgsize < pgsize := Nat.mod_lt _ (by decide)
    unfold chunk
    omega
  generalize chunk va p.length = c at *
  rw [List.length_drop] at hle
  constructor
  · omega
  · intro i hi
    by_cases hin : i < c
    · exact hfirst i hin
    · obtain ⟨b, rfl⟩ := Nat.exists_eq_add_of_le (Nat.le_of_not_lt hin)
      rw [← uint_uint_add]
      exact h.user b (by omega)
  · rcases h.result with ⟨hr, hj⟩ | ⟨hr, hj, hnot⟩
    · rw [List.length_drop] at hj
      exact .inl ⟨hr, by omega⟩
    · rw [List.length_drop] at hj
      rw [uint_uint_add] at hnot
      exact .inr ⟨hr, by omega, hnot⟩
  · rw [h.state, Machine.copied, applied, applied, List.foldl_cons, List.append_assoc,
      List.singleton_append]
  · intro st hst
    rcases List.mem_cons.mp hst with rfl | hst
    · refine ⟨rfl, hva, huser, rfl, ?_⟩
      dsimp only
      rw [List.length_take]
      omega
    · exact h.placed st hst
  · have hrest : (List.range j).map
          (fun i : Nat => (kaddr d (uint (uint (va + c) + i)), (p.drop c).getD i 0)) =
        (List.range j).map ((fun i : Nat => (kaddr d (uint (va + i)), p.getD i 0)) ∘ (c + ·)) := by
      apply List.map_congr_left
      intro i _
      rw [Function.comp_apply, uint_uint_add, List.getD_eq_getElem?_getD, List.getElem?_drop,
        ← List.getD_eq_getElem?_getD]
    rw [writes_cons, h.bytes, List.range_add, List.map_append, List.map_map, hrest, hwrites]

theorem copyoutLoop_spec (hmem : InMemory d) {rounds : Nat} (hva : va < 2 ^ 32)
    (hrounds : p.length ≤ rounds) (m : Machine) :
    Yields (fun e => e = .wild ∧ ¬ Tabled d va p.length)
      (fun r => ∃ j stores, Copies d va p m r.1 r.2 j stores)
      ((copyoutLoop d rounds va p).run (Machine.step k) m) := by
  have hnil (rounds va : Nat) (m : Machine) : Yields (fun e => e = .wild ∧ ¬ Tabled d va 0)
      (fun r => ∃ j stores, Copies d va [] m r.1 r.2 j stores)
      ((copyoutLoop d rounds va []).run (Machine.step k) m) := by
    rw [copyoutLoop_nil]
    refine ⟨0, [], Nat.le_refl _, fun i hi => absurd hi (by omega), .inl ⟨rfl, rfl⟩, ?_,
      (fun _ h => nomatch h), rfl⟩
    simp [applied]
  induction rounds generalizing va p m with
  | zero =>
    obtain rfl : p = [] := List.length_eq_zero_iff.mp (by omega)
    exact hnil ..
  | succ rounds ih =>
    by_cases hp : p = []
    · subst hp
      exact hnil ..
    · have hlen : 0 < p.length := List.length_pos_iff.mpr hp
      by_cases huser : UserAt d va
      · have hpos := chunk_pos va hlen
        have hleft : (p.drop (chunk va p.length)).length ≤ rounds := by
          rw [List.length_drop]
          omega
        rw [(round_user rounds hp hmem hva huser m).1, tabled_chunk hva huser]
        have hlt : uint (va + chunk va p.length) < 2 ^ 32 := uint_lt _
        have hrest := ih hlt hleft (m.copied d va (p.take (chunk va p.length)))
        rw [List.length_drop] at hrest
        apply hrest.mono fun _ h => h
        rintro r ⟨j, stores, hcopies⟩
        exact ⟨_, _, hcopies.cons hva huser⟩
      · cases htable : d.table (pdx va) with
        | none =>
          apply (round_null rounds hp htable m).1.mono
          · exact fun e he => ⟨he, not_tabled_of_null hva hlen htable⟩
          · rintro r rfl
            exact ⟨0, [], .stop hva hp huser m⟩
        | some t =>
          have hsome : (d.table (pdx va)).isSome := by simp [htable]
          rw [(round_stop rounds hp hsome huser m).1]
          exact ⟨0, [], .stop hva hp huser m⟩

/-! ## Directories that `exec` passes -/

/-- What `exec` builds from the memory of `m₀` before it sets the guard page. -/
inductive Built (k : KernelImage) (m₀ : Machine) : PageDir → Nat → Machine → Prop
  | setup {d : PageDir} {m : Machine}
      (h : (vm (setupkvm k)).run (Machine.step k) m₀ = .ok (some d, m)) : Built k m₀ d 0 m
  | alloc {d d' : PageDir} {sz newsz sz' : Nat} {m t : Machine} (hd : Built k m₀ d sz m)
      (h : (vm (allocuvm d sz newsz)).run (Machine.step k) m = .ok ((d', sz'), t))
      (hsz : sz' ≠ 0) : Built k m₀ d' sz' t

/-- A page directory built by `setupkvm` and `allocuvm`, and the one with a guard page. -/
inductive Prepared (k : KernelImage) (m₀ : Machine) : PageDir → Machine → Prop
  | built {d : PageDir} {sz : Nat} {m : Machine} (hd : Built k m₀ d sz m) : Prepared k m₀ d m
  | guarded {d d' : PageDir} {sz v : Nat} {m t : Machine} (hd : Built k m₀ d sz m) (hv : v < sz)
      (h : (vm (clearpteu d v)).run (Machine.step k) m = .ok (d', t)) : Prepared k m₀ d' t

theorem Built.loading {m₀ : Machine} (hc : Custody k m₀.free) {sz : Nat}
    (h : Built k m₀ d sz m) : Loading m₀.free d sz ∧ Working m₀.free m₀ [] d.pages m := by
  induction h with
  | setup h =>
    have hrun := setupkvm_yields hc (.refl m₀)
    rw [h] at hrun
    exact hrun
  | @alloc d d' sz newsz sz' m t hd h hsz ih =>
    have hrun := allocuvm_yields hc ih.1 newsz ih.2
    rw [h] at hrun
    obtain ⟨hwork, himage, hfit⟩ := hrun
    exact ⟨⟨(hfit hsz).2, himage⟩, hwork⟩

theorem Prepared.inMemory {m₀ : Machine} (hc : Custody k m₀.free) (h : Prepared k m₀ d m) :
    InMemory d := by
  cases h with
  | built hd =>
    obtain ⟨hload, -⟩ := hd.loading hc
    intro v hv x hx huser
    have hlow := (hload.image.access v hv x hx).mp huser
    exact (hc.frames _ (hload.image.user v hlow x hx)).2.2
  | guarded hd hv h =>
    obtain ⟨hload, hwork⟩ := hd.loading hc
    have hrun := clearpteu_yields hc hload hv hwork
    rw [h] at hrun
    obtain ⟨-, hguard⟩ := hrun
    intro v hv x hx huser
    have hlow := ((hguard.access v hv x hx).mp huser).1
    exact (hc.frames _ (hguard.user v hlow x hx)).2.2

/-! ## An image of two pages -/

/-- A machine with free pages whose caller has no memory. -/
def roomy (cnt : Nat) : Machine where
  free := (List.range cnt).map (330 + ·)
  mem := fun _ => 0
  zero := none
  found := true
  caller := ⟨PageDir.empty 329, 0, [], 0, 0⟩
  calls := []
  stores := []

theorem roomy_custody {cnt : Nat} (hcnt : cnt ≤ 2048) : Custody smallKernel (roomy cnt).free := by
  constructor
  · apply Multiset.coe_nodup.mpr
    exact List.nodup_range.map fun i j (h : 330 + i = 330 + j) => by omega
  · intro page hpage
    obtain ⟨i, hi, rfl⟩ := List.mem_map.mp (Multiset.mem_coe.mp hpage)
    have hi := List.mem_range.mp hi
    change 0 < 330 + i ∧ 272 ≤ 330 + i ∧ 330 + i < 57344
    omega

theorem Machine.kalloc_supply (k : KernelImage) (site : Site) (s : Machine) (page : Nat)
    (rest : List Nat) (h : s.free = page :: rest) :
    ∃ t, s.vmStep k (.kalloc site) = .ok (some page, t) ∧ t.free = rest ∧ True :=
  ⟨_, s.vmStep_kalloc_cons site h, rfl, trivial⟩

/-- With enough pages `setupkvm` builds its directory. -/
theorem roomy_setupkvm : ∃ cnt ≤ 2048, ∃ d : PageDir, (∀ i, Vacant i → d.table i = none) ∧
    ∀ s : Machine, s.free = (roomy cnt).free → ∃ m,
      (vm (setupkvm smallKernel)).run (Machine.step smallKernel) s = .ok (some d, m) ∧
        m.free.length = 6 := by
  obtain ⟨cnt, hcnt, d, hvacant, -, hsetup⟩ := setupkvm_supplied (R := fun _ _ : Machine => True)
    (fun _ => trivial) (fun _ _ _ _ _ => trivial) (Machine.kalloc_supply smallKernel) smallKernel
    (330 + ·)
  have hcnt : cnt ≤ 1025 := hcnt
  have hfree : (roomy (cnt + 6)).free = (List.range cnt).map (330 + ·) ++
      ((List.range 6).map (cnt + ·)).map (330 + ·) := by
    rw [← List.map_append, ← List.range_add]
    rfl
  refine ⟨cnt + 6, by omega, d, hvacant, fun s hs => ?_⟩
  obtain ⟨m, hrun, hm, -⟩ := hsetup s _ (hs.trans hfree)
  refine ⟨m, ?_, ?_⟩
  · rw [Machine.run_vm]
    exact hrun
  · rw [hm, List.length_map, List.length_map, List.length_range]

/-- Six pages are enough for two pages of user memory. -/
theorem allocuvm_six {sz : Nat} (hsz : sz ≤ 2 * pgsize) (hd : Fits d 0) (hm : m.free.length = 6) :
    ∃ d' t, (vm (allocuvm d 0 sz)).run (Machine.step k) m = .ok ((d', sz), t) ∧
      ∀ i, nentries / 2 ≤ i → d'.table i = d.table i := by
  have hnew : sz < kernbase := by
    simp only [pgsize, kernbase] at *
    omega
  have hlen : 2 * (sz / pgsize + 1) ≤ m.free.length := by
    simp only [pgsize] at *
    omega
  have hunmapped (v : Nat) (hv : 0 ≤ v) (hvk : v < kernbase) : d.pte v = none := by
    have hnot := mt (hd.2 v hvk).mp (Nat.not_lt_zero _)
    exact Option.not_isSome_iff_eq_none.mp hnot
  have hround : pgroundup 0 = 0 := by decide
  obtain ⟨d', t, halloc, -, htable⟩ := allocLoop_supplied (Machine.kalloc_supply k) hnew
    (Nat.zero_mod pgsize) hunmapped hlen
  refine ⟨d', t, ?_, htable⟩
  rw [Machine.run_vm, allocuvm, if_neg (Nat.not_le.mpr hnew), if_neg (Nat.not_lt_zero _), hround]
  exact halloc

theorem roomy_built {sz : Nat} (hpos : 0 < sz) (hsz : sz ≤ 2 * pgsize) : ∃ cnt ≤ 2048, ∃ d m,
    Built smallKernel (roomy cnt) d sz m ∧ ∀ i, nentries / 2 ≤ i → Vacant i → d.table i = none := by
  obtain ⟨cnt, hcnt, d, hvacant, hsetup⟩ := roomy_setupkvm
  obtain ⟨m, hrun, hm⟩ := hsetup (roomy cnt) rfl
  have hbuilt : Built smallKernel (roomy cnt) d 0 m := .setup hrun
  obtain ⟨hload, -⟩ := hbuilt.loading (roomy_custody hcnt)
  obtain ⟨d', t, halloc, htable⟩ := allocuvm_six hsz hload.fits hm
  exact ⟨cnt, hcnt, d', t, hbuilt.alloc halloc (by omega),
    fun i hi hv => (htable i hi).trans (hvacant i hv)⟩

/-! ## When it is safe -/

/-- `copyout` reads only page-table entries that exist, stores its bytes on user pages of the
directory at their addresses up to the first page that is none, and returns `0` exactly if there
is none. -/
structure CopyoutSafe (k : KernelImage) (d : PageDir) (va : Nat) (p : List Byte) (m : Machine) :
    Prop where
  entries : (copyout d va p).Meets (Machine.step k) (fun o _ => o ≠ .nullPte) m
  copies : Yields (fun _ => False) (fun r => ∃ j stores, Copies d va p m r.1 r.2 j stores)
    ((copyout d va p).run (Machine.step k) m)

/-- `copyout` is safe exactly if every page it comes to, up to the first that is not a user page,
has a page table. -/
theorem copyout_safe_iff {m₀ m' : Machine} (hc : Custody k m₀.free) (hd : Prepared k m₀ d m')
    (hva : va < 2 ^ 32) (p : List Byte) (m : Machine) :
    CopyoutSafe k d va p m ↔ Tabled d va p.length := by
  have hmem := hd.inMemory hc
  have hmeets := copyoutLoop_meets (k := k) hmem hva (Nat.le_refl _) m (p := p)
  constructor
  · intro h
    exact hmeets.mp h.entries
  · intro htabled
    constructor
    · exact hmeets.mpr htabled
    · apply (copyoutLoop_spec hmem hva (Nat.le_refl _) m).mono
      · exact fun e he => he.2 htabled
      · exact fun r hr => hr

/-- The same for one byte on the second page of a small image. -/
theorem copyout_safe_iff_byte : ∃ cnt d m, Custody smallKernel (roomy cnt).free ∧
    Prepared smallKernel (roomy cnt) d m ∧ Tabled d pgsize 1 ∧
      (CopyoutSafe smallKernel d pgsize [97] m ↔ Tabled d pgsize 1) := by
  obtain ⟨cnt, hcnt, d, m, hbuilt, -⟩ := roomy_built (by decide : 0 < 2 * pgsize) (Nat.le_refl _)
  have hc := roomy_custody hcnt
  refine ⟨cnt, d, m, hc, .built hbuilt, ?_, copyout_safe_iff hc (.built hbuilt) (by decide) [97] m⟩
  intro i hi _
  have haddr : uint (pgsize + i) = pgsize := by
    rw [show i = 0 by omega]
    rfl
  rw [haddr]
  exact (hbuilt.loading hc).1.fits.table_isSome (by decide)

/-- A string of 64 MB is pushed to an address without a page table. -/
theorem copyout_without_table : ∃ cnt d m, ∃ arg : List Byte, arg.length = 2 ^ 26 ∧
    Custody smallKernel (roomy cnt).free ∧ Prepared smallKernel (roomy cnt) d m ∧
      ¬ CopyoutSafe smallKernel d (uint (2 * pgsize - (arg.length + 1)) / 4 * 4) (arg ++ [0]) m := by
  obtain ⟨cnt, hcnt, d, m, hbuilt, hvacant⟩ :=
    roomy_built (by decide : 0 < 2 * pgsize) (Nat.le_refl _)
  have hc := roomy_custody hcnt
  obtain ⟨hload, -⟩ := hbuilt.loading hc
  have hpos : 0 < 2 * pgsize := by decide
  obtain ⟨u, hu⟩ := Option.isSome_iff_exists.mp (hload.fits.table_isSome hpos)
  have hclear : (vm (clearpteu d 0)).run (Machine.step smallKernel) m =
      .ok (d.setPte 0 ((d.pte 0).map fun x => { x with user := false }), m) := by
    rw [Machine.run_vm, clearpteu, hu]
    rfl
  generalize hd' : d.setPte 0 ((d.pte 0).map fun x => { x with user := false }) = d' at hclear
  have hprepared : Prepared smallKernel (roomy cnt) d' m := .guarded hbuilt hpos hclear
  have hlong (n : Nat) : ∃ arg : List Byte, arg.length = n := ⟨_, List.length_replicate (a := 97)⟩
  obtain ⟨arg, harg⟩ := hlong (2 ^ 26)
  refine ⟨cnt, d', m, arg, harg, hc, hprepared, fun hsafe => ?_⟩
  generalize hva : uint (2 * pgsize - (arg.length + 1)) / 4 * 4 = va at hsafe
  have hpdx : pdx va = 1008 ∧ va < 2 ^ 32 := by
    rw [← hva, harg]
    decide
  have hlen : 0 < (arg ++ [0]).length := by
    rw [List.length_append]
    exact Nat.succ_pos _
  have htable : d'.table (pdx va) = none := by
    rw [hpdx.1, ← hd', table_setPte_of_ne (by decide)]
    exact hvacant 1008 (by decide) (.inr (by decide))
  have htabled := (copyoutLoop_meets (k := smallKernel) (hprepared.inMemory hc) hpdx.2
    (Nat.le_refl _) m (p := arg ++ [0])).mp hsafe.entries
  exact not_tabled_of_null hpdx.2 hlen htable htabled

end Xv6Containers.Vm
