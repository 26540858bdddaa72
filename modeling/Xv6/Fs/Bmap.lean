import Xv6.Fs.Owner

/-!
# Block numbers of a file (project3/fs.c:373-480, bmap)

`bmap` finds the block of a position, over up to three indirect blocks, and
allocates what is missing on the way.
-/

namespace Xv6.Fs
open Buffer Forest

variable (sb : Superblock)

def Inode.setAddr (ip : Inode) (k : Fin 9) (addr : BitVec 32) : Inode :=
  { ip with addrs := Function.update ip.addrs k addr }

-- if((addr = ip->addrs[k]) == 0) ip->addrs[k] = addr = balloc(ip->dev);
def slot (ip : Inode) (k : Fin 9) : Op (Nat × Inode) :=
  if ip.addrs k = 0 then do
    let addr ← balloc sb
    pure (addr, ip.setAddr k (BitVec.ofNat 32 addr))
  else pure ((ip.addrs k).toNat, ip)

-- bp = bread(ip->dev, blockno); a = (uint*)bp->data;
-- if((addr = a[j]) == 0){ a[j] = addr = balloc(ip->dev); log_write(bp); }
def entry (blockno j : Nat) : Op Nat := do
  let a ← bread blockno
  if getWord a (4 * j) = 0 then do
    let addr ← balloc sb
    logWrite blockno (setWord · (4 * j) (BitVec.ofNat 32 addr))
    pure addr
  else pure (getWord a (4 * j)).toNat

def bmap (ip : Inode) (bn : Nat) : Op (Nat × Inode) :=
  if bn < NDIRECT then slot sb ip (Fin.ofNat 9 bn)
  else
    let bn := bn - NDIRECT
    if bn < NINDIRECT then do
      let (bp, ip) ← slot sb ip 6
      let addr ← entry sb bp bn
      brelse bp
      pure (addr, ip)
    else
      let bn := bn - NINDIRECT
      if bn < NDINDIRECT then do
        let dindex := bn / NINDIRECT
        let index := bn % NINDIRECT
        let (dbp, ip) ← slot sb ip 7
        let bp ← entry sb dbp dindex
        let addr ← entry sb bp index
        brelse bp
        brelse dbp
        pure (addr, ip)
      else
        let bn := bn - NDINDIRECT
        if bn < NTINDIRECT then do
          let tindex := bn / NDINDIRECT
          let dindex := bn % NDINDIRECT / NINDIRECT
          let index := bn % NDINDIRECT % NINDIRECT
          let (tbp, ip) ← slot sb ip 8
          let dbp ← entry sb tbp tindex
          let bp ← entry sb dbp dindex
          let addr ← entry sb bp index
          brelse bp
          brelse dbp
          brelse tbp
          pure (addr, ip)
        else .panic .bmapOutOfRange

/-- Where the block of position `bn` is, the last index first. -/
def path (bn : Nat) : Fin 9 × List (Fin 128) :=
  if bn < 6 then (Fin.ofNat 9 bn, [])
  else if bn < 134 then (6, [Fin.ofNat 128 (bn - 6)])
  else if bn < 16518 then (7, [Fin.ofNat 128 (bn - 134), Fin.ofNat 128 ((bn - 134) / 128)])
  else (8, [Fin.ofNat 128 (bn - 16518), Fin.ofNat 128 ((bn - 16518) / 128),
    Fin.ofNat 128 ((bn - 16518) / 16384)])

/-- The place of block `bn` of inode `i`. -/
def place (i bn : Nat) : Place := ((i, (path bn).1), (path bn).2)

/-- The places that `bmap` looks at: the block and the indirect blocks above it. -/
def branch (i bn : Nat) : List Place := (path bn).2.tails.map fun js => ((i, (path bn).1), js)

def slotOf (k : Nat) : Fin 9 := ⟨k % 9, Nat.mod_lt k (by decide)⟩

def entryOf (j : Nat) : Fin 128 := ⟨j % 128, Nat.mod_lt j (by decide)⟩

theorem slotOf_eq {x : Nat} {k : Fin 9} (h : x = k.val) : slotOf x = k := by
  refine Fin.ext ?_
  rw [h]
  exact Nat.mod_eq_of_lt k.isLt

theorem entryOf_eq {x : Nat} {j : Fin 128} (h : x = j.val) : entryOf x = j := by
  refine Fin.ext ?_
  rw [h]
  exact Nat.mod_eq_of_lt j.isLt

theorem MAXFILE_eq : MAXFILE = 2113670 := by decide

variable {sb} {i j bn bm : Nat}

theorem path_direct (h : bn < 6) : path bn = (Fin.ofNat 9 bn, []) := if_pos h

theorem path_single (bn : Nat) (h : 6 ≤ bn) (h' : bn < 134) :
    ∃ j : Fin 128, path bn = (6, [j]) ∧ bn - 6 = j := by
  refine ⟨Fin.ofNat 128 (bn - 6), ?_, (Nat.mod_eq_of_lt (by omega)).symm⟩
  unfold path
  rw [if_neg (by omega), if_pos h']

theorem path_double (bn : Nat) (h : 134 ≤ bn) (h' : bn < 16518) :
    ∃ j d : Fin 128, path bn = (7, [j, d]) ∧
      (bn - 6 - 128) % 128 = j ∧ (bn - 6 - 128) / 128 = d := by
  have hsub : bn - 6 - 128 = bn - 134 := by omega
  rw [hsub]
  refine ⟨Fin.ofNat 128 (bn - 134), Fin.ofNat 128 ((bn - 134) / 128), ?_, rfl, ?_⟩
  · unfold path
    rw [if_neg (by omega), if_neg (by omega), if_pos h']
  · exact (Nat.mod_eq_of_lt (by omega)).symm

theorem path_triple (bn : Nat) (h : 16518 ≤ bn) (h' : bn < 2113670) :
    ∃ j d t : Fin 128, path bn = (8, [j, d, t]) ∧
      (bn - 6 - 128 - 16384) % 16384 % 128 = j ∧ (bn - 6 - 128 - 16384) % 16384 / 128 = d ∧
      (bn - 6 - 128 - 16384) / 16384 = t := by
  have hsub : bn - 6 - 128 - 16384 = bn - 16518 := by omega
  rw [hsub]
  refine ⟨Fin.ofNat 128 (bn - 16518), Fin.ofNat 128 ((bn - 16518) / 128),
    Fin.ofNat 128 ((bn - 16518) / 16384), ?_, ?_, ?_, ?_⟩
  · unfold path
    rw [if_neg (by omega), if_neg (by omega), if_neg (by omega)]
  · show (bn - 16518) % 16384 % 128 = (bn - 16518) % 128
    omega
  · show (bn - 16518) % 16384 / 128 = (bn - 16518) / 128 % 128
    omega
  · exact (Nat.mod_eq_of_lt (by omega)).symm

theorem length_path (bn : Nat) : (path bn).2.length = (path bn).1 - 5 := by
  unfold path
  split_ifs with h1 h2 h3
  · have hv : (Fin.ofNat 9 bn).val = bn := Nat.mod_eq_of_lt (by omega)
    simp only [List.length_nil, hv]
    omega
  · rfl
  · rfl
  · rfl

theorem leaf_place (hi : i < sb.ninodes) (bn : Nat) : Leaf sb (place i bn) := ⟨hi, length_path bn⟩

theorem path_inj (hbn : bn < MAXFILE) (hbm : bm < MAXFILE) (h : path bn = path bm) : bn = bm := by
  rw [MAXFILE_eq] at hbn hbm
  unfold path at h
  split_ifs at h <;>
    simp only [Prod.mk.injEq, List.cons.injEq, Fin.ext_iff, Fin.ofNat, and_true, reduceCtorEq,
      and_false] at h <;>
    omega

theorem place_inj (hbn : bn < MAXFILE) (hbm : bm < MAXFILE) (h : place i bn = place j bm) :
    i = j ∧ bn = bm := by
  obtain ⟨hr, hp⟩ := Prod.mk.inj h
  obtain ⟨hi, hk⟩ := Prod.mk.inj hr
  exact ⟨hi, path_inj hbn hbm (Prod.ext hk hp)⟩

theorem mem_branch_of_suffix {js : List (Fin 128)} (h : js <:+ (path bn).2) :
    (((i, (path bn).1), js) : Place) ∈ branch i bn :=
  List.mem_map.mpr ⟨js, (List.mem_tails _ _).mpr h, rfl⟩

theorem valid_of_mem_branch {p : Place} (hi : i < sb.ninodes) (h : p ∈ branch i bn) :
    (shape sb).Valid p := by
  obtain ⟨js, hjs, rfl⟩ := List.mem_map.mp h
  have hle := List.IsSuffix.length_le ((List.mem_tails _ _).mp hjs)
  rw [length_path] at hle
  exact ⟨hi, hle⟩

/-! ### Specifications -/

section Spec

variable {S : Finset Place} {D : Place → Nat → Prop} {T : AddrTable} {σ τ : Contents}
  {H : Panic → Prop} {ip : Inode} {p : Place} {x : Nat}

theorem exists_free (hp : p ∈ S) (h0 : blockAt T σ p = 0) (hroom : need S T σ ≤ freeBlocks sb σ) :
    ∃ x, x < sb.size ∧ bit sb σ x = false := by
  have hneed : 0 < need S T σ := Finset.card_pos.mpr ⟨p, Finset.mem_filter.mpr ⟨hp, h0⟩⟩
  obtain ⟨x, hx⟩ := Finset.card_pos.mp (Nat.lt_of_lt_of_le hneed hroom)
  obtain ⟨hmem, hbit⟩ := Finset.mem_filter.mp hx
  exact ⟨x, Finset.mem_range.mp hmem, hbit⟩

theorem toNat_ofNat_block (hx : x < sb.size) : (BitVec.ofNat 32 x).toNat = x := by
  have h := Superblock.lt_of_size hx
  rw [BitVec.toNat_ofNat]
  omega

theorem toNat_eq_zero {w : BitVec 32} : w.toNat = 0 ↔ w = 0 :=
  ⟨fun h => BitVec.eq_of_toNat_eq h, fun h => by rw [h]; rfl⟩

/-- A new block hung into a slot of the inode. -/
theorem grafted_slot {k : Fin 9} (hT : T ip.inum = ip.addrs) (h0 : ip.addrs k = 0)
    (h : Consistent sb T σ) (hx : sb.datastart ≤ x) (hxs : x < sb.size)
    (hfree : bit sb σ x = false) :
    Grafted (shape sb) (forest T σ)
      (forest (Function.update T ip.inum (Function.update ip.addrs k (BitVec.ofNat 32 x)))
        (allocated sb σ x)) ((ip.inum, k), []) x where
  ne_zero := by
    have := sb.datastart_pos
    omega
  empty := by
    show (T ip.inum k).toNat = 0
    rw [hT, h0]
    rfl
  root := by
    rintro ⟨i, m⟩
    refine ⟨fun hq => ?_, fun hq => ?_⟩
    · cases hq
      show (Function.update T ip.inum _ ip.inum k).toNat = x
      rw [Function.update_self, Function.update_self]
      exact toNat_ofNat_block hxs
    · show (Function.update T ip.inum _ i m).toNat = (T i m).toNat
      by_cases hi : i = ip.inum
      · subst hi
        have hm : m ≠ k := by
          rintro rfl
          exact hq rfl
        rw [Function.update_self, Function.update_of_ne hm, hT]
      · rw [Function.update_of_ne hi]
  child := by
    intro r js hin hne j
    refine ⟨fun hq => ?_, fun _ => ?_⟩
    · exact absurd (congrArg Prod.snd hq).symm (List.cons_ne_nil j js)
    · rw [forest_child, forest_child]
      rw [(h.allocated_eq hxs hfree (p := (r, js)) hin.valid hne).2]
  parent := fun r j js hq => absurd (congrArg Prod.snd hq).symm (List.cons_ne_nil j js)
  leaf := by
    intro j
    have hj := j.isLt
    have hB : BSIZE = 512 := rfl
    rw [forest_child, allocated_self, getWord_zeros]
    rfl

theorem slot_spec {k : Fin 9} (h : Consistent sb T σ) (hT : T ip.inum = ip.addrs)
    (hi : ip.inum < sb.ninodes) (hS : ∀ p ∈ S, (shape sb).Valid p)
    (hq : (((ip.inum, k), []) : Place) ∈ S)
    (hroom : H .outOfBlocks ∨ need S T σ ≤ freeBlocks sb σ) :
    (slot sb ip k).wp H sb.Logged (fun r τ => ∃ a, r.2 = { ip with addrs := a } ∧
      Extends sb S D T σ (Function.update T ip.inum a) τ ∧
      blockAt (Function.update T ip.inum a) τ ((ip.inum, k), []) = r.1 ∧ r.1 ≠ 0 ∧
      (blockAt T σ ((ip.inum, k), []) ≠ 0 → a = ip.addrs ∧ τ = σ)) σ := by
  unfold slot
  have hvalid : (shape sb).Valid (((ip.inum, k), []) : Place) := ⟨hi, Nat.zero_le _⟩
  have hsame : Function.update T ip.inum ip.addrs = T := by rw [← hT, Function.update_eq_self]
  split_ifs with h0
  · have hempty : blockAt T σ ((ip.inum, k), []) = 0 := by
      show (T ip.inum k).toNat = 0
      rw [hT, h0]
      rfl
    refine wp_seq (balloc_spec h.marked (hroom.imp_right (exists_free hq hempty))) ?_
    rintro x τ ⟨hx, hxs, hfree, rfl⟩
    refine wp_pure ⟨_, rfl, ?_⟩
    have hg := grafted_slot hT h0 h hx hxs hfree
    have hpos := sb.datastart_pos
    obtain ⟨hext, hself⟩ := h.extend hx hxs hfree hvalid hq hS
      (fun _ _ _ => rfl) (fun b hb => allocated_low hx hb)
      (fun p hp hp0 => (h.allocated_eq hxs hfree hp.valid hp0).2) hg
    exact ⟨hext, hself, by show x ≠ 0; omega, fun hne => absurd hempty hne⟩
  · refine wp_pure ⟨ip.addrs, rfl, ?_⟩
    rw [hsame]
    refine ⟨Extends.refl h, ?_, fun hz => h0 (toNat_eq_zero.mp hz), fun _ => ⟨rfl, rfl⟩⟩
    show (T ip.inum k).toNat = (ip.addrs k).toNat
    rw [hT]

/-- A new block hung into an entry of an indirect block. -/
theorem grafted_entry {r : Nat × Fin 9} {js : List (Fin 128)} {j : Fin 128} {w : Nat}
    (h : Consistent sb T σ) (hin : (shape sb).Inner (r, js)) (hw : blockAt T σ (r, js) = w)
    (hw0 : w ≠ 0) (h0 : getWord (σ w) (4 * j) = 0)
    (hx : sb.datastart ≤ x) (hxs : x < sb.size) (hfree : bit sb σ x = false) :
    Grafted (shape sb) (forest T σ)
      (forest T (Function.update (allocated sb σ x) w
        (setWord (allocated sb σ x w) (4 * j) (BitVec.ofNat 32 x)))) (r, j :: js) x := by
  have hB : BSIZE = 512 := rfl
  have hj := j.isLt
  have hne : blockAt T σ (r, js) ≠ 0 := by
    rw [hw]
    exact hw0
  obtain ⟨hwx, hkeep⟩ := h.allocated_eq hxs hfree hin.valid hne
  rw [hw] at hwx hkeep
  refine ⟨?_, ?_, ?_, ?_, ?_, ?_⟩
  · have := sb.datastart_pos
    omega
  · show (forest T σ).ref r (j :: js) = 0
    rw [ref_cons hne]
    show (getWord (σ (blockAt T σ (r, js))) (4 * j)).toNat = 0
    rw [hw, h0]
    rfl
  · exact fun i => ⟨fun hq => absurd (congrArg Prod.snd hq) (List.cons_ne_nil j js), fun _ => rfl⟩
  · intro i ks hik hine m
    have hm := m.isLt
    rw [forest_child, forest_child]
    by_cases hv : (forest T σ).ref i ks = w
    · have hplace : ((r, js) : Place) = (i, ks) :=
        h.owns.uniq _ _ hin.valid hik.valid hne (hw.trans hv.symm)
      obtain ⟨rfl, rfl⟩ := Prod.mk.inj hplace
      rw [hv, Function.update_self, hkeep]
      refine ⟨fun hq => ?_, fun hq => ?_⟩
      · have hjm : j = m := by
          obtain ⟨hjm, -⟩ := List.cons.inj (congrArg Prod.snd hq)
          exact hjm
        rw [← hjm, getWord_setWord _ _ _ (by omega)]
        exact toNat_ofNat_block hxs
      · have hjm : (j : Nat) ≠ m := by
          intro hc
          exact hq (by rw [Fin.ext hc])
        rw [getWord_setWord_ne _ _ _ (by omega)]
    · rw [Function.update_of_ne hv, (h.allocated_eq hxs hfree (p := (i, ks)) hik.valid hine).2]
      refine ⟨fun hq => ?_, fun _ => rfl⟩
      obtain ⟨hr, hl⟩ := Prod.mk.inj hq
      obtain ⟨-, hl⟩ := List.cons.inj hl
      subst hr
      subst hl
      exact absurd hw hv
  · intro i m ks hq
    obtain ⟨hr, hl⟩ := Prod.mk.inj hq
    obtain ⟨-, hl⟩ := List.cons.inj hl
    subst hr
    subst hl
    exact hne
  · intro m
    have hm := m.isLt
    rw [forest_child, Function.update_of_ne hwx.symm, allocated_self, getWord_zeros]
    rfl

theorem entry_spec {r : Nat × Fin 9} {js : List (Fin 128)} {j : Fin 128} {w : Nat}
    (h : Consistent sb T σ) (hin : (shape sb).Inner (r, js)) (hw : blockAt T σ (r, js) = w)
    (hw0 : w ≠ 0) (hS : ∀ p ∈ S, (shape sb).Valid p) (hq : ((r, j :: js) : Place) ∈ S)
    (hroom : H .outOfBlocks ∨ need S T σ ≤ freeBlocks sb σ) :
    (entry sb w j).wp H sb.Logged (fun addr τ => Extends sb S D T σ T τ ∧
      blockAt T τ (r, j :: js) = addr ∧ addr ≠ 0 ∧ (blockAt T σ (r, j :: js) ≠ 0 → τ = σ)) σ := by
  have hne : blockAt T σ (r, js) ≠ 0 := by
    rw [hw]
    exact hw0
  have hchild : blockAt T σ (r, j :: js) = (getWord (σ w) (4 * j)).toNat := by
    show (forest T σ).ref r (j :: js) = _
    rw [ref_cons hne]
    show (getWord (σ (blockAt T σ (r, js))) (4 * j)).toNat = _
    rw [hw]
  have hlive := h.live hin.valid hne
  rw [hw] at hlive
  refine wp_bind (wp_bread ?_)
  split_ifs with h0
  · have hempty : blockAt T σ (r, j :: js) = 0 := by
      rw [hchild, h0]
      rfl
    refine wp_seq (balloc_spec h.marked (hroom.imp_right (exists_free hq hempty))) ?_
    rintro x τ ⟨hx, hxs, hfree, rfl⟩
    refine wp_bind (wp_logWrite (Superblock.logged_of_datastart hlive.1) (wp_pure ?_))
    have hpos := sb.datastart_pos
    have hbm := sb.bmapstart_lt_datastart
    have hg := grafted_entry h hin hw hw0 h0 hx hxs hfree
    obtain ⟨hext, hself⟩ := h.extend hx hxs hfree (hin.cons j) hq hS
      (fun b _ hb => Function.update_of_ne (by have := hlive.1; omega) _ _)
      (fun b hb => by
        rw [Function.update_of_ne (by have := hlive.1; omega)]
        exact allocated_low hx hb)
      (fun p hp hp0 => by
        have hpw : blockAt T σ p ≠ w := by
          rw [← hw]
          refine h.owns.ref_ne hp.valid hin.valid hp0 ?_
          rintro rfl
          exact hp.not_inner hin
        rw [Function.update_of_ne hpw]
        exact (h.allocated_eq hxs hfree hp.valid hp0).2) hg
    exact ⟨hext, hself, by omega, fun hne => absurd hempty hne⟩
  · exact wp_pure ⟨Extends.refl h, hchild, fun hz => h0 (toNat_eq_zero.mp hz), fun _ => rfl⟩

/-- What `bmap` leaves: the inode may have new slots, and the block is at its place. A
block that was there before is found without any change. -/
structure Mapped (sb : Superblock) (S : Finset Place) (D : Place → Nat → Prop) (T : AddrTable)
    (σ : Contents) (ip : Inode) (p : Place) (r : Nat × Inode) (τ : Contents) : Prop where
  inode : r.2 = { ip with addrs := r.2.addrs }
  ext : Extends sb S D T σ (Function.update T ip.inum r.2.addrs) τ
  at_place : blockAt (Function.update T ip.inum r.2.addrs) τ p = r.1
  ne_zero : r.1 ≠ 0
  found : blockAt T σ p ≠ 0 → r.2.addrs = ip.addrs ∧ τ = σ

theorem bmap_spec (h : Consistent sb T σ) (hT : T ip.inum = ip.addrs)
    (hi : ip.inum < sb.ninodes) (hS : ∀ p ∈ S, (shape sb).Valid p)
    (hbr : ∀ p ∈ branch ip.inum bn, p ∈ S) (hbn : bn < MAXFILE)
    (hroom : H .outOfBlocks ∨ need S T σ ≤ freeBlocks sb σ) :
    (bmap sb ip bn).wp H sb.Logged (Mapped sb S D T σ ip (place ip.inum bn)) σ := by
  rw [MAXFILE_eq] at hbn
  have hsuf : ∀ js, js <:+ (path bn).2 → (((ip.inum, (path bn).1), js) : Place) ∈ S :=
    fun js hjs => hbr _ (mem_branch_of_suffix hjs)
  have e1 : NDIRECT = 6 := rfl
  have e2 : NINDIRECT = 128 := rfl
  have hself : Function.update T ip.inum ip.addrs = T := by rw [← hT, Function.update_eq_self]
  unfold bmap place
  by_cases h1 : bn < NDIRECT
  · rw [if_pos h1]
    rw [path_direct (by omega)] at hsuf ⊢
    refine wp_mono (slot_spec (D := D) h hT hi hS (hsuf [] (List.suffix_refl _)) hroom) ?_
    rintro ⟨addr, ip'⟩ τ ⟨a, rfl, hext, hat, h0, hsame⟩
    exact ⟨rfl, hext, hat, h0, hsame⟩
  rw [if_neg h1]
  dsimp only
  by_cases h2 : bn - NDIRECT < NINDIRECT
  · obtain ⟨j, hpath, hj⟩ := path_single bn (by omega) (by omega)
    rw [if_pos h2, e1, hj]
    rw [hpath] at hsuf ⊢
    refine wp_seq (slot_spec (D := D) h hT hi hS (hsuf [] List.nil_suffix) hroom) ?_
    rintro ⟨bp, ip1⟩ σ1 ⟨a, rfl, hext, hat, h0, hsame⟩
    have hin : (shape sb).Inner (((ip.inum, 6), []) : Place) := ⟨hi, Nat.zero_lt_one⟩
    refine wp_seq (entry_spec (D := D) hext.consistent hin hat h0 hS (hsuf _ (List.suffix_refl _))
      (hroom.imp_right hext.room)) ?_
    rintro addr σ2 ⟨hext2, hat2, h02, hsame2⟩
    refine wp_bind (wp_brelse (wp_pure ⟨rfl, hext.trans hext2, hat2, h02, fun hp => ?_⟩))
    obtain ⟨ha, rfl⟩ := hsame (ref_tail_ne_zero hp)
    subst ha
    rw [hself] at hsame2
    exact ⟨rfl, hsame2 hp⟩
  rw [if_neg h2]
  by_cases h3 : bn - NDIRECT - NINDIRECT < NDINDIRECT
  · have e3 : NDINDIRECT = 16384 := rfl
    obtain ⟨j, d, hpath, hj, hd⟩ := path_double bn (by omega) (by omega)
    rw [if_pos h3, e1, e2, hj, hd]
    rw [hpath] at hsuf ⊢
    refine wp_seq (slot_spec (D := D) h hT hi hS (hsuf [] List.nil_suffix) hroom) ?_
    rintro ⟨dbp, ip1⟩ σ1 ⟨a, rfl, hext, hat, h0, hsame⟩
    have hin : (shape sb).Inner (((ip.inum, 7), []) : Place) := ⟨hi, Nat.zero_lt_succ 1⟩
    refine wp_seq (entry_spec (D := D) hext.consistent hin hat h0 hS (hsuf _ (List.suffix_cons _ _))
      (hroom.imp_right hext.room)) ?_
    rintro bp σ2 ⟨hext2, hat2, h02, hsame2⟩
    have hext12 := hext.trans hext2
    have hin2 : (shape sb).Inner (((ip.inum, 7), [d]) : Place) := ⟨hi, Nat.lt_succ_self 1⟩
    refine wp_seq (entry_spec (D := D) hext2.consistent hin2 hat2 h02 hS
      (hsuf _ (List.suffix_refl _)) (hroom.imp_right hext12.room)) ?_
    rintro addr σ3 ⟨hext3, hat3, h03, hsame3⟩
    refine wp_bind (wp_brelse (wp_bind (wp_brelse (wp_pure
      ⟨rfl, hext12.trans hext3, hat3, h03, fun hp => ?_⟩))))
    have hp1 := ref_tail_ne_zero hp
    obtain ⟨ha, rfl⟩ := hsame (ref_tail_ne_zero hp1)
    subst ha
    rw [hself] at hsame2 hsame3
    obtain rfl := hsame2 hp1
    exact ⟨rfl, hsame3 hp⟩
  rw [if_neg h3]
  have e3 : NDINDIRECT = 16384 := rfl
  have e4 : NTINDIRECT = 2097152 := rfl
  have h4 : bn - NDIRECT - NINDIRECT - NDINDIRECT < NTINDIRECT := by omega
  obtain ⟨j, d, t, hpath, hj, hd, ht⟩ := path_triple bn (by omega) (by omega)
  rw [if_pos h4, e1, e2, e3, hj, hd, ht]
  rw [hpath] at hsuf ⊢
  refine wp_seq (slot_spec (D := D) h hT hi hS (hsuf [] List.nil_suffix) hroom) ?_
  rintro ⟨tbp, ip1⟩ σ1 ⟨a, rfl, hext, hat, h0, hsame⟩
  have hin : (shape sb).Inner (((ip.inum, 8), []) : Place) := ⟨hi, Nat.zero_lt_succ 2⟩
  refine wp_seq (entry_spec (D := D) hext.consistent hin hat h0 hS
    (hsuf _ ((List.suffix_cons _ _).trans (List.suffix_cons _ _)))
    (hroom.imp_right hext.room)) ?_
  rintro dbp σ2 ⟨hext2, hat2, h02, hsame2⟩
  have hext12 := hext.trans hext2
  have hin2 : (shape sb).Inner (((ip.inum, 8), [t]) : Place) :=
    ⟨hi, Nat.succ_lt_succ (Nat.zero_lt_succ 1)⟩
  refine wp_seq (entry_spec (D := D) hext2.consistent hin2 hat2 h02 hS (hsuf _ (List.suffix_cons _ _))
    (hroom.imp_right hext12.room)) ?_
  rintro bp σ3 ⟨hext3, hat3, h03, hsame3⟩
  have hext13 := hext12.trans hext3
  have hin3 : (shape sb).Inner (((ip.inum, 8), [d, t]) : Place) := ⟨hi, Nat.lt_succ_self 2⟩
  refine wp_seq (entry_spec (D := D) hext3.consistent hin3 hat3 h03 hS
    (hsuf _ (List.suffix_refl _)) (hroom.imp_right hext13.room)) ?_
  rintro addr σ4 ⟨hext4, hat4, h04, hsame4⟩
  refine wp_bind (wp_brelse (wp_bind (wp_brelse (wp_bind (wp_brelse (wp_pure
    ⟨rfl, hext13.trans hext4, hat4, h04, fun hp => ?_⟩))))))
  have hp1 := ref_tail_ne_zero hp
  have hp2 := ref_tail_ne_zero hp1
  obtain ⟨ha, rfl⟩ := hsame (ref_tail_ne_zero hp2)
  subst ha
  rw [hself] at hsame2 hsame3 hsame4
  obtain rfl := hsame2 hp2
  obtain rfl := hsame3 hp1
  exact ⟨rfl, hsame4 hp⟩

end Spec

end Xv6.Fs
