import Solaris.Ndbm.Cache

/-!
# The way to a page

`dbm_access` follows the bits of a hash down the directory until it comes to a page that has not been split, and brings
that page into the buffer. `setbit` splits a page.
-/

namespace Solaris.Ndbm

section Directory

open Lib Dbm Nat Function BitVec Option

variable {db : Dbm}

section Access

lemma Cached.move (h : Cached db) (blkno bitno hmask : Nat) :
    Cached { db with blkno := blkno, bitno := bitno, hmask := hmask } :=
  ⟨h.pag, h.clean, h.dirty, h.dirClean, h.dirDirty, h.maxbno⟩

lemma same_move (db : Dbm) (blkno bitno hmask : Nat) :
    Same db { db with blkno := blkno, bitno := bitno, hmask := hmask } := ⟨rfl, rfl, rfl, rfl, rfl⟩

lemma Cached.testbit (h : Cached db) (n : Nat) :
    (db.testbit n).1 = db.bit n ∧ Cached (db.testbit n).2 ∧ Same db (db.testbit n).2 := by
  unfold Dbm.testbit
  split
  · rename_i hgt
    refine ⟨?_, h, Same.refl db⟩
    cases hb : db.bit n with
    | false => rfl
    | true =>
      have := h.maxbno n hb
      omega
  · obtain ⟨hc, hsame, -, hbuf⟩ := h.loadDir (dirBlk n)
    refine ⟨?_, hc, hsame⟩
    dsimp only
    rw [hbuf]
    rfl

structure At (db : Dbm) (hash k : Nat) : Prop where
  blkno : db.blkno = hash % 2 ^ k
  bitno : db.bitno = hash % 2 ^ k + (2 ^ k - 1)
  hmask : db.hmask = 2 ^ k - 1

lemma Cached.walk (h : Cached db) {hash leaf : Nat} (hleaf : LeafAt db.IsSplit hash leaf) (j k : Nat) (hk : k ≤ leaf)
    (hj : leaf - k < j) :
    Cached (walk hash j (2 ^ k - 1) db) ∧ Same db (walk hash j (2 ^ k - 1) db) ∧
      At (walk hash j (2 ^ k - 1) db) hash leaf := by
  induction j generalizing k db with
  | zero => omega
  | succ j ih =>
    rw [Dbm.walk]
    rw [Nat.and_two_pow_sub_one_eq_mod]
    obtain ⟨hbit, hc, hsame⟩ := h.testbit (hash % 2 ^ k + (2 ^ k - 1))
    set r := db.testbit (hash % 2 ^ k + (2 ^ k - 1)) with hr
    have hc' := hc.move (hash % 2 ^ k) (hash % 2 ^ k + (2 ^ k - 1)) (2 ^ k - 1)
    have hsame' := hsame.trans (same_move r.2 (hash % 2 ^ k) (hash % 2 ^ k + (2 ^ k - 1)) (2 ^ k - 1))
    rcases Nat.eq_or_lt_of_le hk with rfl | hlt
    · have hstop : ¬r.1 = true := by
        rw [hbit]
        exact fun hb => hleaf.here ⟨Nat.mod_lt _ (Nat.two_pow_pos k), hb⟩
      rw [if_neg hstop]
      exact ⟨hc', hsame', rfl, rfl, rfl⟩
    have hgo : r.1 = true := by
      rw [hbit]
      exact (hleaf.above k hlt).2
    have hmask : (2 ^ k - 1) * 2 + 1 = 2 ^ (k + 1) - 1 := by
      have := Nat.two_pow_pos k
      omega
    rw [if_pos hgo, hmask]
    rw [← hsame'.isSplit] at hleaf
    obtain ⟨hw, hsw, hat⟩ := ih hc' hleaf (k + 1) (by omega) (by omega)
    exact ⟨hw, hsame'.trans hsw, hat⟩

/-- No page is split below level 20: the page it would give cannot be written. -/
def Shallow (db : Dbm) : Prop := ∀ k b, db.IsSplit k b → k ≤ 20

lemma exists_leaf (hs : Shallow db) (hash : Nat) : ∃ k, k ≤ 21 ∧ LeafAt db.IsSplit hash k := by
  have hex : ∃ k, ¬db.IsSplit k (hash % 2 ^ k) := by
    refine ⟨21, fun hsplit => ?_⟩
    have := hs 21 _ hsplit
    omega
  classical
  refine ⟨Nat.find hex, ?_, ?_, Nat.find_spec hex⟩
  · refine Nat.find_le_iff hex 21 |>.mpr ⟨21, le_rfl, fun hsplit => ?_⟩
    have := hs 21 _ hsplit
    omega
  · intro j hj
    exact not_not.mp (Nat.find_min hex hj)

lemma leaf_lt {hash k : Nat} (hk : k ≤ 21) : hash % 2 ^ k < 2 ^ 21 :=
  Nat.lt_of_lt_of_le (Nat.mod_lt _ (Nat.two_pow_pos k)) (Nat.pow_le_pow_right (by decide) hk)

theorem Cached.access (h : Cached db) {hash k : Nat} (hk : k ≤ 21) (hleaf : LeafAt db.IsSplit hash k) :
    Cached (db.access hash) ∧ Same db (db.access hash) ∧ At (db.access hash) hash k ∧
      (db.access hash).pagbno = some (hash % 2 ^ k) ∧ (db.access hash).pagbuf = db.page (hash % 2 ^ k) := by
  obtain ⟨hw, hsw, hat⟩ := h.walk hleaf 32 0 (zero_le k) (by omega)
  have hlt : (Dbm.walk hash 32 (2 ^ 0 - 1) db).blkno < 2 ^ 21 := by
    rw [hat.blkno]
    exact leaf_lt hk
  obtain ⟨hc, hs, hbno, hbuf, hblk, hmask, hbit⟩ := hw.loadPage hlt
  refine ⟨hc, hsw.trans hs, ⟨hblk.trans hat.blkno, hbit.trans hat.bitno, hmask.trans hat.hmask⟩, ?_, ?_⟩
  · rw [← hat.blkno]
    exact hbno
  · rw [← hat.blkno, ← hsw.page]
    exact hbuf

end Access

section Setbit

lemma dir_position_inj {m n : Nat} (h1 : dirBlk m = dirBlk n) (h2 : dirByte m = dirByte n)
    (h3 : m % BYTESIZ = n % BYTESIZ) : m = n := by
  unfold dirBlk at h1
  unfold dirByte at h2
  simp only [BYTESIZ, DBLKSIZ] at h1 h2 h3
  omega

lemma bit_or {b c : Byte} {i n : Nat} (hn : n < 8) (hi : i < 8) (hc : c = b ||| BitVec.twoPow 8 n) :
    c.getLsbD i = (b.getLsbD i || decide (i = n)) := by
  rw [hc, getLsbD_or, getLsbD_twoPow]
  simp [hn, hi, eq_comm]

lemma Cached.setbit (h : Cached db) :
    Cached db.setbit ∧ db.setbit.page = db.page ∧ db.setbit.rdonly = db.rdonly ∧ db.setbit.ioerr = db.ioerr ∧
      ∀ m, db.setbit.bit m = (db.bit m || decide (m = db.bitno)) := by
  have hmax : Cached { db with maxbno := max db.maxbno db.bitno } :=
    ⟨h.pag, h.clean, h.dirty, h.dirClean, h.dirDirty, fun n hn => le_max_of_le_left (h.maxbno n hn)⟩
  obtain ⟨hc, hsame, hbno, hbuf⟩ := hmax.loadDir (dirBlk db.bitno)
  set db1 := ({ db with maxbno := max db.maxbno db.bitno } : Dbm).loadDir (dirBlk db.bitno) with hdb1
  have hbit1 : db1.bitno = db.bitno := by
    rw [hdb1]
    unfold Dbm.loadDir Dbm.flushdir
    split
    · rfl
    · split
      · split <;> rfl
      · rfl
  have hdir1 : db1.dirBlock = db.dirBlock := hsame.dir
  set buf := update db1.dirbuf (dirByte db1.bitno)
    (db1.dirbuf (dirByte db1.bitno) ||| twoPow 8 (db1.bitno % BYTESIZ)) with hbufdef
  -- the directory with the new block
  have hmem : ∀ db2 : Dbm, db2.dirbno = some (dirBlk db.bitno) → db2.dirbuf = buf →
      (∀ b, b ≠ dirBlk db.bitno → db2.dirf.read b = db1.dirf.read b) →
      ∀ m, db2.bit m = (db.bit m || decide (m = db.bitno)) := by
    intro db2 hb2 hbuf2 hf2 m
    have hblock : db2.dirBlock (dirBlk m) = if dirBlk m = dirBlk db.bitno then buf else db.dirBlock (dirBlk m) := by
      rw [← hdir1]
      unfold Dbm.dirBlock
      rw [hb2, hbno, hbuf2]
      by_cases hm : dirBlk m = dirBlk db.bitno
      · simp [hm]
      · rw [if_neg (fun heq => hm (some.inj heq).symm), if_neg hm, if_neg (fun heq => hm (some.inj heq).symm),
          hf2 _ hm]
    have hm8 : m % BYTESIZ < 8 := mod_lt _ (by decide)
    have hn8 : db.bitno % BYTESIZ < 8 := mod_lt _ (by decide)
    unfold Dbm.bit
    rw [hblock]
    split_ifs with hm
    · rw [hbufdef, hbit1, hbuf]
      have hsameblk : ({ db with maxbno := max db.maxbno db.bitno } : Dbm).dirBlock (dirBlk db.bitno) =
          db.dirBlock (dirBlk m) := by
        rw [hm]
        rfl
      rw [hsameblk]
      by_cases hy : dirByte m = dirByte db.bitno
      · rw [hy, update_self, bit_or hn8 hm8 rfl]
        congr 1
        rw [decide_eq_decide]
        exact ⟨fun h8 => dir_position_inj hm hy h8, fun heq => by rw [heq]⟩
      · rw [update_of_ne hy]
        have hne : m ≠ db.bitno := fun heq => hy (by rw [heq])
        simp [hne]
    · have hne : m ≠ db.bitno := fun heq => hm (by rw [heq])
      simp [hne]
  have hcases : ∀ db2 : Dbm, db2.dirbno = some (dirBlk db.bitno) → db2.dirbuf = buf →
      (∀ b, b ≠ dirBlk db.bitno → db2.dirf.read b = db1.dirf.read b) → db2.maxbno = db1.maxbno →
      db2.pagbno = db1.pagbno → db2.pagbuf = db1.pagbuf → db2.pagf = db1.pagf → db2.dirty = db1.dirty →
      (db2.dirdirty = false → db2.dirf.read (dirBlk db.bitno) = buf) →
      Cached db2 ∧ db2.page = db.page ∧ ∀ m, db2.bit m = (db.bit m || decide (m = db.bitno)) := by
    intro db2 hb2 hbuf2 hf2 hmx hpn hpb hpf hd hclean
    refine ⟨⟨?_, ?_, ?_, ?_, ?_, ?_⟩, ?_, hmem db2 hb2 hbuf2 hf2⟩
    · rw [hpn]
      exact hc.pag
    · rw [hpn, hpb, hpf, hd]
      exact hc.clean
    · rw [hpn, hd]
      exact hc.dirty
    · intro b hb hdd
      rw [hb2] at hb
      rw [hbuf2, ← some.inj hb, hclean hdd]
    · intro _
      rw [hb2]
      simp
    · intro n hn
      rw [hmem db2 hb2 hbuf2 hf2] at hn
      rw [hmx, hsame.maxbno]
      rcases Bool.or_eq_true_iff.mp hn with hn | hn
      · exact le_max_of_le_left (h.maxbno n hn)
      · rw [of_decide_eq_true hn]
        exact le_max_right _ _
    · have hpage : db1.page = db.page := hsame.page
      funext b
      rw [← hpage]
      unfold Dbm.page
      rw [hpn, hpb, hpf]
  unfold Dbm.setbit
  dsimp only
  split
  · obtain ⟨hc2, hp2, hm2⟩ := hcases { db1 with dirbuf := buf, dirdirty := true } hbno rfl (fun _ _ => rfl) rfl rfl rfl rfl
      rfl (fun hf => absurd hf (by simp))
    exact ⟨hc2, hp2, hsame.rdonly, hsame.ioerr, hm2⟩
  · obtain ⟨hc2, hp2, hm2⟩ := hcases { db1 with dirbuf := buf, dirf := db1.dirf.write (dirBlk db1.bitno) buf } hbno rfl
      (fun b hb => File.read_write_ne _ _ (by rwa [hbit1])) rfl rfl rfl rfl rfl
      (fun _ => by rw [hbit1]; exact File.read_write_self _ _ _)
    exact ⟨hc2, hp2, hsame.rdonly, hsame.ioerr, hm2⟩

lemma bitno_inj {k k' b b' : Nat} (hb : b < 2 ^ k) (hb' : b' < 2 ^ k') (h : b + (2 ^ k - 1) = b' + (2 ^ k' - 1)) :
    k = k' ∧ b = b' := by
  have hlow : ∀ {k k' b b' : Nat}, b < 2 ^ k → b + (2 ^ k - 1) = b' + (2 ^ k' - 1) → ¬k < k' := by
    intro k k' b b' hb h hlt
    have h1 : 2 ^ (k + 1) ≤ 2 ^ k' := Nat.pow_le_pow_right (by decide) hlt
    omega
  have h1 := hlow hb h
  have h2 := hlow hb' h.symm
  have hk : k = k' := by omega
  subst hk
  exact ⟨rfl, by omega⟩

theorem At.setbit {hash k : Nat} (hat : At db hash k) (h : Cached db) :
    db.setbit.IsSplit = splitNode db.IsSplit k (hash % 2 ^ k) := by
  obtain ⟨-, -, -, -, hbit⟩ := h.setbit
  funext j c
  unfold Dbm.IsSplit splitNode
  rw [hbit, hat.bitno, eq_iff_iff, Bool.or_eq_true_iff, decide_eq_true_iff, and_or_left]
  refine or_congr Iff.rfl ⟨?_, ?_⟩
  · rintro ⟨hc, heq⟩
    exact bitno_inj hc (Nat.mod_lt _ (Nat.two_pow_pos k)) heq
  · rintro ⟨rfl, rfl⟩
    exact ⟨Nat.mod_lt _ (Nat.two_pow_pos j), rfl⟩

end Setbit

end Directory

/-!
## What a database contains

Every page that is the leaf of some hash holds pairs, and every pair is on the page of its key.
-/

section Database

open Lib Dbm List Function Nat BitVec Option

section Contents

structure Holds (db : Dbm) (content : Nat → Pairs) : Prop where
  cached : Cached db
  closed : SplitClosed db.IsSplit
  shallow : Shallow db
  pages : ∀ h k, LeafAt db.IsSplit h k → PageOf (db.page (h % 2 ^ k)) (flat (content (h % 2 ^ k)))
  nodup : ∀ b, ((content b).map Prod.fst).Nodup
  home : ∀ b kv, kv ∈ content b → ∃ k, LeafAt db.IsSplit (dcalchash kv.1) k ∧ dcalchash kv.1 % 2 ^ k = b
  ioerr : db.ioerr = false

def Denotes (content : Nat → Pairs) (m : Bytes → Option Bytes) : Prop := ∀ key v, m key = some v ↔ ∃ b, (key, v) ∈ content b

variable {db db' : Dbm} {content : Nat → Pairs} {m : Bytes → Option Bytes} {key : Bytes} {k b : Nat}

lemma Holds.congr (h : Holds db content) (hc : Cached db') (hs : Same db db') : Holds db' content := by
  refine ⟨hc, ?_, ?_, ?_, h.nodup, ?_, hs.ioerr.trans h.ioerr⟩
  · rw [hs.isSplit]
    exact h.closed
  · unfold Shallow
    rw [hs.isSplit]
    exact h.shallow
  · rw [hs.isSplit, hs.page]
    exact h.pages
  · rw [hs.isSplit]
    exact h.home

lemma Holds.mem_iff (h : Holds db content) (hm : Denotes content m) (hleaf : LeafAt db.IsSplit (dcalchash key) k)
    (v : Bytes) : m key = some v ↔ (key, v) ∈ content (dcalchash key % 2 ^ k) := by
  rw [hm key v]
  constructor
  · rintro ⟨b, hb⟩
    obtain ⟨k', hleaf', heq⟩ := h.home b _ hb
    have hk : k' = k := hleaf'.unique hleaf
    subst hk
    rw [heq]
    exact hb
  · intro hmem
    exact ⟨_, hmem⟩

/-- What `dbm_access` leaves: the page of the key in the buffer. -/
structure Accessed (db : Dbm) (content : Nat → Pairs) (hash k : Nat) : Prop where
  holds : Holds db content
  leaf : LeafAt db.IsSplit hash k
  level : k ≤ 21
  at_ : At db hash k
  pagbno : db.pagbno = some (hash % 2 ^ k)
  page : PageOf db.pagbuf (flat (content (hash % 2 ^ k)))

lemma Holds.access (h : Holds db content) {hash : Nat} (hk : k ≤ 21) (hleaf : LeafAt db.IsSplit hash k) :
    Accessed (db.access hash) content hash k ∧ (db.access hash).rdonly = db.rdonly := by
  obtain ⟨hc, hs, hat, hbno, hbuf⟩ := h.cached.access hk hleaf
  refine ⟨⟨h.congr hc hs, ?_, hk, hat, hbno, ?_⟩, hs.rdonly⟩
  · rw [hs.isSplit]
    exact hleaf
  · rw [hbuf]
    exact h.pages hash k hleaf

theorem Holds.fetch (h : Holds db content) (hm : Denotes content m) (key : Bytes) :
    (db.fetch key).1 = m key ∧ Holds (db.fetch key).2 content ∧ (db.fetch key).2.rdonly = db.rdonly := by
  obtain ⟨k, hk, hleaf⟩ := exists_leaf h.shallow (dcalchash key)
  obtain ⟨hacc, hro⟩ := h.access hk hleaf
  have hmem := hacc.holds.mem_iff hm hacc.leaf
  unfold Dbm.fetch
  rw [h.ioerr]
  simp only [Bool.false_eq_true, if_false]
  have hpage := hacc.page
  rcases hpage.finddatum key with ⟨hnone, hall⟩ | ⟨pre, v, post, hps, hfind⟩
  · rw [hnone]
    refine ⟨?_, hacc.holds, hro⟩
    cases hv : m key with
    | none => rfl
    | some v => exact absurd rfl (hall _ ((hmem v).mp hv))
  rw [hfind]
  refine ⟨?_, hacc.holds, hro⟩
  rw [hps] at hpage
  have hv : m key = some v := (hmem v).mpr (by rw [hps]; simp)
  rw [hv]
  exact hpage.makdatum_dat

end Contents

section Update

variable {db db' : Dbm} {content : Nat → Pairs} {m : Bytes → Option Bytes} {key dat : Bytes} {k b hash : Nat} {buf : Block}
  {ps : Pairs}

lemma page_update (hp : db.pagbno = some b) (hp' : db'.pagbno = some b) (hbuf : db'.pagbuf = buf)
    (hf : ∀ b', b' ≠ b → db'.pagf.read b' = db.pagf.read b') : db'.page = update db.page b buf := by
  funext b'
  unfold Dbm.page
  rw [hp, hp', hbuf]
  by_cases hb : b' = b
  · subst hb
    simp
  · have hne : ¬some b = some b' := fun heq => hb (some.inj heq).symm
    rw [if_neg hne, update_of_ne hb, if_neg hne, hf b' hb]

lemma Accessed.replace (h : Accessed db content hash k) (hc : Cached db') (hdir : db'.dirBlock = db.dirBlock)
    (hpage : db'.page = update db.page (hash % 2 ^ k) buf) (hio : db'.ioerr = false) (hbuf : PageOf buf (flat ps))
    (hnd : (ps.map Prod.fst).Nodup) (hhome : ∀ kv ∈ ps, kv ∈ content (hash % 2 ^ k) ∨ dcalchash kv.1 = hash) :
    Holds db' (update content (hash % 2 ^ k) ps) := by
  have hsplit : db'.IsSplit = db.IsSplit := by
    funext j c
    unfold Dbm.IsSplit Dbm.bit
    rw [hdir]
  refine ⟨hc, ?_, ?_, ?_, ?_, ?_, hio⟩
  · rw [hsplit]
    exact h.holds.closed
  · unfold Shallow
    rw [hsplit]
    exact h.holds.shallow
  · rw [hsplit, hpage]
    intro g j hleaf
    by_cases hb : g % 2 ^ j = hash % 2 ^ k
    · rw [hb, update_self, update_self]
      exact hbuf
    · rw [update_of_ne hb, update_of_ne hb]
      exact h.holds.pages g j hleaf
  · intro b
    by_cases hb : b = hash % 2 ^ k
    · rw [hb, update_self]
      exact hnd
    · rw [update_of_ne hb]
      exact h.holds.nodup b
  · intro b kv hkv
    rw [hsplit]
    by_cases hb : b = hash % 2 ^ k
    · rw [hb, update_self] at hkv
      rcases hhome kv hkv with hold | heq
      · rw [hb]
        exact h.holds.home _ kv hold
      · rw [heq]
        exact ⟨k, h.leaf, hb.symm⟩
    · rw [update_of_ne hb] at hkv
      exact h.holds.home b kv hkv

lemma Accessed.writeBack (h : Accessed db content hash k) (hbuf : PageOf buf (flat ps)) (hnd : (ps.map Prod.fst).Nodup)
    (hhome : ∀ kv ∈ ps, kv ∈ content (hash % 2 ^ k) ∨ dcalchash kv.1 = hash) :
    ∃ db', Dbm.writeBack { db with pagbuf := buf } = (.ok, db') ∧
      Holds db' (update content (hash % 2 ^ k) ps) ∧ db'.rdonly = db.rdonly := by
  have hc := h.holds.cached
  have hlt : hash % 2 ^ k < 2 ^ 21 := leaf_lt h.level
  have hpag : ∀ b', some (hash % 2 ^ k) = some b' → b' < 2 ^ 21 := by
    intro b' hb'
    rwa [← some.inj hb']
  unfold Dbm.writeBack
  dsimp only
  rw [h.at_.blkno]
  split
  · refine ⟨_, rfl, ?_, rfl⟩
    refine h.replace ⟨hpag, fun _ _ hf => absurd hf (by simp), fun _ => by simp, hc.dirClean, hc.dirDirty, hc.maxbno⟩ rfl
      ?_ h.holds.ioerr hbuf hnd hhome
    exact page_update h.pagbno rfl rfl fun _ _ => rfl
  unfold Dbm.writePage
  rw [seek_of_lt hlt]
  refine ⟨_, rfl, ?_, rfl⟩
  refine h.replace ⟨hpag, ?_, fun _ => by simp, hc.dirClean, hc.dirDirty, hc.maxbno⟩ rfl ?_ h.holds.ioerr hbuf hnd hhome
  · intro b' hb' _
    rw [← some.inj hb', File.read_write_self]
  · exact page_update h.pagbno rfl rfl fun b' hb' => File.read_write_ne _ _ hb'

lemma Denotes.erase (hm : Denotes content m) (h : Accessed db content (dcalchash key) k) {pre post : Pairs} {v : Bytes}
    (hps : content (dcalchash key % 2 ^ k) = pre ++ (key, v) :: post) :
    Denotes (update content (dcalchash key % 2 ^ k) (pre ++ post)) (update m key none) := by
  have hnd := h.holds.nodup (dcalchash key % 2 ^ k)
  rw [hps, map_append, map_cons, nodup_append, nodup_cons] at hnd
  obtain ⟨-, ⟨hpost, -⟩, hpre⟩ := hnd
  have hnot : ∀ kv ∈ pre ++ post, kv.1 ≠ key := by
    intro kv hkv heq
    rcases mem_append.mp hkv with hkv | hkv
    · exact hpre kv.1 (mem_map_of_mem hkv) key (mem_cons_self ..) heq
    · have hmem : kv.1 ∈ post.map Prod.fst := mem_map_of_mem hkv
      rw [heq] at hmem
      exact hpost hmem
  intro key' v'
  by_cases hkey : key' = key
  · subst hkey
    rw [update_self]
    refine ⟨fun hf => absurd hf (some_ne_none v').symm, ?_⟩
    rintro ⟨b, hb⟩
    by_cases hbb : b = dcalchash key' % 2 ^ k
    · rw [hbb, update_self] at hb
      exact absurd rfl (hnot _ hb)
    · rw [update_of_ne hbb] at hb
      obtain ⟨j, hleaf, heq⟩ := h.holds.home b _ hb
      have hj : j = k := hleaf.unique h.leaf
      subst hj
      exact absurd heq.symm hbb
  · rw [update_of_ne hkey, hm key' v']
    refine exists_congr fun b => ?_
    by_cases hbb : b = dcalchash key % 2 ^ k
    · subst hbb
      rw [update_self, hps]
      simp [hkey]
    · rw [update_of_ne hbb]

lemma Denotes.add (hm : Denotes content m) (hnone : m key = none) (dat : List Byte) :
    Denotes (update content b (content b ++ [(key, dat)])) (update m key (some dat)) := by
  intro key' v'
  have hmem : (∃ b', (key', v') ∈ update content b (content b ++ [(key, dat)]) b') ↔
      (∃ b', (key', v') ∈ content b') ∨ (key' = key ∧ v' = dat) := by
    constructor
    · rintro ⟨b', hb'⟩
      by_cases hbb : b' = b
      · subst hbb
        rw [update_self] at hb'
        rcases mem_append.mp hb' with hold | hnew
        · exact .inl ⟨b', hold⟩
        · have := mem_singleton.mp hnew
          exact .inr ⟨congrArg Prod.fst this, congrArg Prod.snd this⟩
      · rw [update_of_ne hbb] at hb'
        exact .inl ⟨b', hb'⟩
    · rintro (⟨b', hb'⟩ | ⟨rfl, rfl⟩)
      · refine ⟨b', ?_⟩
        by_cases hbb : b' = b
        · subst hbb
          rw [update_self]
          exact mem_append_left _ hb'
        · rwa [update_of_ne hbb]
      · exact ⟨b, by simp⟩
  rw [hmem, ← hm key' v']
  by_cases hkey : key' = key
  · subst hkey
    rw [update_self, hnone]
    simp [eq_comm]
  · rw [update_of_ne hkey]
    simp [hkey]

theorem Holds.delete (h : Holds db content) (hm : Denotes content m) (hro : db.rdonly = false) (key : Bytes) :
    ∃ content', Holds (db.delete key).2 content' ∧ (db.delete key).2.rdonly = false ∧
      (∀ b kv, kv ∈ content' b → kv ∈ content b) ∧
      ((m key = none ∧ (db.delete key).1 = .failed .absent ∧ Denotes content' m) ∨
        (m key ≠ none ∧ (db.delete key).1 = .ok ∧ Denotes content' (update m key none))) := by
  obtain ⟨k, hk, hleaf⟩ := exists_leaf h.shallow (dcalchash key)
  obtain ⟨hacc, hro'⟩ := h.access hk hleaf
  rw [hro] at hro'
  have hmem := hacc.holds.mem_iff hm hacc.leaf
  unfold Dbm.delete
  rw [h.ioerr, hro]
  simp only [Bool.false_eq_true, if_false]
  have hpage := hacc.page
  rcases hpage.finddatum key with ⟨hnone, hall⟩ | ⟨pre, v, post, hps, hfind⟩
  · rw [hnone]
    refine ⟨content, hacc.holds, hro', fun _ _ hkv => hkv, .inl ⟨?_, rfl, hm⟩⟩
    cases hv : m key with
    | none => rfl
    | some v => exact absurd rfl (hall _ ((hmem v).mp hv))
  rw [hfind]
  dsimp only
  rw [hps] at hpage
  obtain ⟨buf', hdel, hbuf'⟩ := hpage.delete
  rw [hdel]
  dsimp only
  have hnd := hacc.holds.nodup (dcalchash key % 2 ^ k)
  have hsub : (pre ++ post).Sublist (content (dcalchash key % 2 ^ k)) := by
    rw [hps]
    exact List.Sublist.append_left (sublist_cons_self _ _) _
  obtain ⟨db', hwb, hholds, hro''⟩ := hacc.writeBack hbuf' (hnd.sublist (hsub.map _))
    (fun kv hkv => .inl (hsub.subset hkv))
  rw [hwb]
  refine ⟨_, hholds, hro''.trans hro', ?_, .inr ⟨?_, rfl, hm.erase hacc hps⟩⟩
  · intro b kv hkv
    by_cases hb : b = dcalchash key % 2 ^ k
    · rw [hb, update_self] at hkv
      rw [hb]
      exact hsub.subset hkv
    · rwa [update_of_ne hb] at hkv
  · rw [(hmem v).mpr (by rw [hps]; simp)]
    simp

end Update

end Database

end Solaris.Ndbm
