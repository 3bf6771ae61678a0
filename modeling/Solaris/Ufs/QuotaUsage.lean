import Solaris.Ufs.AllocCalls

/-!
# Usage and allocation

The allocators charge the owner before they search, and do not take the charge back when the search fails. So usage
follows allocation exactly when a charged request comes to its end at the first attempt.
-/

namespace Solaris.Ufs

open Nat Option

variable {L : Layout} {d : Disk} {q : Quota} {dq : Dquot} {uid : Nat}

/-- The owner has a `dquot`, and quotas are enabled. -/
structure Tracked (q : Quota) (dq : Dquot) : Prop where
  enabled : q.enabled = true
  dquot : q.dquot = some dq

def FileLimit (dq : Dquot) : Prop := ¬(dq.fsoftlimit = 0 ∧ dq.fhardlimit = 0)

def Quota.blocks (q : Quota) : Option Nat := q.dquot.map Dquot.curblocks

def Quota.files (q : Quota) : Option Nat := q.dquot.map Dquot.curfiles

/-- Usage has grown by `n` when the call returned 0, and is as before when it returned an error. -/
def Follows {A : Type} (usage n : Nat) (answer : Except Errno A) (after : Option Nat) : Prop :=
  match answer with
  | .ok _ => after = some (usage + n)
  | .error _ => after = some usage

lemma chkdq_tracked (h : Tracked q dq) {n : Nat} (hn : 0 < n) :
    ((chkdq q n false uid).1 = none → (chkdq q n false uid).2.blocks = some (dq.curblocks + n)) ∧
      ((chkdq q n false uid).1 ≠ none → (chkdq q n false uid).2.blocks = some dq.curblocks) := by
  have hne : (n : Int) ≠ 0 := by omega
  have hneg : ¬(n : Int) < 0 := by omega
  unfold chkdq
  rw [if_neg hne, h.dquot]
  dsimp only
  rw [if_neg (by rw [h.enabled]; exact Bool.true_eq_false.mp), if_neg hneg]
  split
  · exact ⟨fun _ => rfl, fun h => absurd rfl h⟩
  · split
    · exact ⟨fun h => (by cases h), fun _ => rfl⟩
    · exact ⟨fun _ => rfl, fun h => absurd rfl h⟩

theorem chkiq_tracked (h : Tracked q dq) (hlimit : FileLimit dq) :
    ∃ dq', Tracked (chkiq q false uid).2 dq' ∧ FileLimit dq' ∧
      ((chkiq q false uid).1 = none → dq'.curfiles = dq.curfiles + 1) ∧
      ((chkiq q false uid).1 ≠ none → dq'.curfiles = dq.curfiles) := by
  unfold chkiq
  rw [if_neg (by rw [h.enabled]; exact Bool.true_eq_false.mp), h.dquot]
  dsimp only
  rw [if_neg hlimit]
  split
  · exact ⟨_, ⟨h.enabled, rfl⟩, hlimit, fun _ => rfl, fun h => absurd rfl h⟩
  · split
    · exact ⟨_, ⟨h.enabled, rfl⟩, hlimit, fun h => (by cases h), fun _ => rfl⟩
    · exact ⟨_, ⟨h.enabled, rfl⟩, hlimit, fun _ => rfl, fun h => absurd rfl h⟩

lemma Tracked.files (h : Tracked q dq) : q.files = some dq.curfiles := by
  unfold Quota.files
  rw [h.dquot]
  rfl

lemma Tracked.blocks (h : Tracked q dq) : q.blocks = some dq.curblocks := by
  unfold Quota.blocks
  rw [h.dquot]
  rfl

/-- The request passes the checks of `alloc`, the one of the quota being the last. -/
def AllocCharged (L : Layout) (d : Disk) (q : Quota) (size uid : Nat) : Prop :=
  ¬(size = L.g.bsize ∧ d.cstotal.nbfree = 0) ∧ ¬(uid ≠ 0 ∧ freespace L d L.minfree ≤ 0) ∧
    (chkdq q (btodb size) false uid).1 = none

/-- The groups have the space that `alloc` looks for. -/
def AllocFinds (L : Layout) (d : Disk) (ino bpref size : Nat) : Prop :=
  let bpref := if L.size ≤ bpref then 0 else bpref
  (hashalloc L.ncg (fun c pref => alloccg L c pref size) (if bpref = 0 then itog L ino else L.dtog bpref) bpref d).1 ≠ 0

/-- Where the counters agree with the maps, that is when a block of a group has the fragments in a row. -/
theorem allocFinds_iff (hs : Searchable L d) (hbal : Balanced L d) (htab : L.cpc = 0 ∨ RotTables L) {size ino : Nat}
    (hsize : LegalSize L size) (hino : ino < L.ncg * L.ipg) (bpref : Nat) :
    AllocFinds L d ino bpref size ↔ ∃ c < L.ncg, HasRun L (d.cg c).blksfree (L.g.numfrags size) := by
  have hcg := preferred_group hino bpref
  unfold AllocFinds
  dsimp only
  constructor
  · intro hne
    obtain ⟨d₁, hsame, htakes, -⟩ := (hashalloc_allocated (alloccg_allocated_any hsize) hcg _ hbal).found hne
    generalize (hashalloc L.ncg (fun c pref => alloccg L c pref size) _ _ d).1 = a at htakes
    refine ⟨L.dtog a, htakes.group, L.dtogd a / L.g.frag, L.dtogd a % L.g.frag, ?_, htakes.block, fun j hj => ?_⟩
    · apply Nat.div_lt_of_lt_mul
      have hone := hsize.numfrags.1
      have hinside := htakes.inside
      rw [Nat.mul_comm, blocks_mul]
      omega
    · rw [← Nat.add_assoc, Nat.div_add_mod', ← (hsame hs.boot).blksfree]
      exact htakes.free j hj
  · rintro ⟨c, hc, hrun⟩ hzero
    exact hashalloc_fails hs htab hsize hcg (Prod.ext hzero rfl) hc hrun

lemma btodb_pos {size : Nat} (hpos : 0 < size) (hwhole : L.g.fsize ∣ size) : 0 < btodb size := by
  obtain ⟨k, rfl⟩ := hwhole
  have hk : 0 < k := Nat.pos_of_mul_pos_left hpos
  rw [btodb_of_dvd (Dvd.intro _ rfl), numfrags_eq, Nat.mul_div_cancel_left k fsize_pos]
  positivity

lemma alloc_follows_iff (h : Tracked q dq) {size : Nat} (hsize : LegalSize L size) (ino bpref uid : Nat) :
    Follows dq.curblocks (btodb size) (alloc L d q ino bpref size uid).1 (alloc L d q ino bpref size uid).2.2.blocks ↔
      (AllocCharged L d q size uid → AllocFinds L d ino bpref size) := by
  have hpos := btodb_pos hsize.pos hsize.whole
  obtain ⟨hcharge, hkeep⟩ := chkdq_tracked h hpos
  unfold alloc AllocCharged AllocFinds
  rw [if_neg hsize.accepted]
  split
  · next hfull => exact ⟨fun _ hcharged => absurd hfull hcharged.1, fun _ => h.blocks⟩
  next hfull =>
  split
  · next hspace => exact ⟨fun _ hcharged => absurd hspace hcharged.2.1, fun _ => h.blocks⟩
  next hspace =>
  split
  · next err q1 heq =>
    rw [heq] at hcharge hkeep ⊢
    refine ⟨fun _ hcharged => (by cases hcharged.2.2), fun _ => hkeep (by simp)⟩
  · next q1 heq =>
    rw [heq] at hcharge hkeep ⊢
    have hblocks := hcharge rfl
    dsimp only at hblocks ⊢
    split
    · next d1 hsearch =>
      rw [hsearch]
      constructor
      · intro hfollows
        have heq' : q1.blocks = some dq.curblocks := hfollows
        rw [hblocks, some.injEq] at heq'
        omega
      · intro hcond
        exact absurd rfl (hcond ⟨hfull, hspace, rfl⟩)
    · next bno d1 hne hsearch =>
      rw [hsearch]
      exact ⟨fun _ _ => hne, fun _ => hblocks⟩

/-- The sizes that `realloccg` is called with: a fragment that grows. -/
structure LegalGrowth (L : Layout) (osize nsize : Nat) : Prop where
  old : L.g.fsize ∣ osize
  new : LegalSize L nsize
  grows : osize < nsize

/-- The request passes the checks of `realloccg`. -/
def ReallocCharged (L : Layout) (d : Disk) (q : Quota) (bprev osize nsize uid : Nat) : Prop :=
  ¬(uid ≠ 0 ∧ freespace L d L.minfree ≤ 0) ∧ bprev ≠ 0 ∧ (chkdq q (btodb (nsize - osize)) false uid).1 = none

/-- The fragment can be extended, or the groups have the space that `realloccg` looks for. -/
def ReallocFinds (L : Layout) (d : Disk) (bprev bpref osize nsize : Nat) : Prop :=
  match fragextend L (L.dtog bprev) bprev osize nsize d with
  | (0, d) =>
    (hashalloc L.ncg (fun c pref => alloccg L c pref (reallocRequest L d nsize).1) (L.dtog bprev)
      (if L.size ≤ bpref then 0 else bpref) { d with optim := (reallocRequest L d nsize).2 }).1 ≠ 0
  | _ => True

lemma realloccg_follows_iff (h : Tracked q dq) {osize nsize : Nat} (hsize : LegalGrowth L osize nsize)
    (bprev bpref uid : Nat) :
    Follows dq.curblocks (btodb (nsize - osize)) (realloccg L d q bprev bpref osize nsize uid).1
        (realloccg L d q bprev bpref osize nsize uid).2.2.blocks ↔
      (ReallocCharged L d q bprev osize nsize uid → ReallocFinds L d bprev bpref osize nsize) := by
  have hgrows := hsize.grows
  have hpos : 0 < btodb (nsize - osize) := btodb_pos (by omega) (dvd_sub hsize.new.whole hsize.old)
  obtain ⟨hcharge, hkeep⟩ := chkdq_tracked h hpos
  have hlegal : ¬(L.g.bsize < osize ∨ L.fragoff osize ≠ 0 ∨ L.g.bsize < nsize ∨ L.fragoff nsize ≠ 0) := by
    rw [fragoff_eq, fragoff_eq, mod_eq_zero_of_dvd hsize.old, mod_eq_zero_of_dvd hsize.new.whole]
    have := hsize.new.le
    omega
  unfold realloccg ReallocCharged ReallocFinds
  rw [if_neg hlegal]
  split
  · next hspace => exact ⟨fun _ hcharged => absurd hspace hcharged.1, fun _ => h.blocks⟩
  next hspace =>
  split
  · next hprev => exact ⟨fun _ hcharged => absurd hprev hcharged.2.1, fun _ => h.blocks⟩
  next hprev =>
  split
  · next err q1 heq =>
    rw [heq] at hcharge hkeep ⊢
    exact ⟨fun _ hcharged => (by cases hcharged.2.2), fun _ => hkeep (by simp)⟩
  · next q1 heq =>
    rw [heq] at hcharge hkeep ⊢
    have hblocks := hcharge rfl
    dsimp only at hblocks ⊢
    split
    · next d1 hextend =>
      rw [hextend]
      change _ ↔ (_ → (hashalloc L.ncg (fun c pref => alloccg L c pref (reallocRequest L d1 nsize).1) (L.dtog bprev)
        (if L.size ≤ bpref then 0 else bpref) { d1 with optim := (reallocRequest L d1 nsize).2 }).1 ≠ 0)
      split
      · next d2 hsearch =>
        rw [hsearch]
        constructor
        · intro hfollows
          have heq' : q1.blocks = some dq.curblocks := hfollows
          rw [hblocks, some.injEq] at heq'
          omega
        · intro hcond
          exact absurd rfl (hcond ⟨hspace, hprev, rfl⟩)
      · next bno d2 hne hsearch =>
        rw [hsearch]
        refine ⟨fun _ _ => hne, fun _ => ?_⟩
        split
        · exact hblocks
        · exact hblocks
    · next bno d1 hne hextend =>
      rw [hextend]
      refine ⟨fun _ _ => ?_, fun _ => hblocks⟩
      split
      · next hzero => exact absurd (Prod.mk.inj hzero).1 hne
      · trivial

/-- The request passes the checks of `ufs_ialloc`. -/
def IallocCharged (d : Disk) (q : Quota) (uid : Nat) : Prop :=
  d.cstotal.nifree ≠ 0 ∧ (chkiq q false uid).1 = none

/-- The first attempt of `ufs_ialloc` comes to an inode that can be read and has no mode. -/
def IallocFinds (L : Layout) (iget : Nat → Except Errno Nat) (d : Disk) (dir : Bool) (ipref : Nat) : Prop :=
  let ipref := if L.ncg * L.ipg ≤ ipref then 0 else ipref
  let ino := (hashalloc L.ncg (fun c pref => ialloccg L c pref dir) (itog L ipref) ipref d).1
  ino ≠ 0 ∧ iget ino = .ok 0

lemma ufsIalloc_grows {iget : Nat → Except Errno Nat} {dir : Bool} {fuel ipref : Nat}
    {r : Except Errno Nat × Disk × Quota} (h : Tracked q dq) (hlimit : FileLimit dq)
    (hr : ufsIalloc L iget dir uid fuel ipref d q = some r) :
    ∃ n, r.2.2.files = some (dq.curfiles + n) ∧ (∀ ino, r.1 = .ok ino → 1 ≤ n) := by
  induction fuel generalizing ipref d q dq with
  | zero => cases hr
  | succ fuel ih =>
    obtain ⟨dq', htracked, hlimit', hcharge, hkeep⟩ := chkiq_tracked h hlimit
    unfold ufsIalloc at hr
    split at hr
    · cases hr
      exact ⟨0, h.files, fun _ hok => (by cases hok)⟩
    split at hr
    · next err q1 heq =>
      cases hr
      rw [heq] at htracked hkeep
      exact ⟨0, by rw [htracked.files, hkeep (by simp)]; rfl, fun _ hok => (by cases hok)⟩
    next q1 heq =>
    rw [heq] at htracked hcharge
    have hfiles : q1.files = some (dq.curfiles + 1) := by rw [htracked.files, hcharge rfl]
    dsimp only at hr
    split at hr
    · cases hr
      exact ⟨1, hfiles, fun _ _ => le_refl 1⟩
    split at hr
    · cases hr
      exact ⟨1, hfiles, fun _ _ => le_refl 1⟩
    split at hr
    · cases hr
      exact ⟨1, hfiles, fun _ _ => le_refl 1⟩
    · obtain ⟨n, hn, -⟩ := ih htracked hlimit' hr
      refine ⟨n + 1, ?_, fun _ _ => le_add_left 1 n⟩
      rw [hn, hcharge rfl]
      congr 1
      omega

lemma ufsIalloc_follows_iff {iget : Nat → Except Errno Nat} {dir : Bool} {fuel ipref : Nat}
    {r : Except Errno Nat × Disk × Quota} (h : Tracked q dq) (hlimit : FileLimit dq)
    (hr : ufsIalloc L iget dir uid fuel ipref d q = some r) :
    Follows dq.curfiles 1 r.1 r.2.2.files ↔ (IallocCharged d q uid → IallocFinds L iget d dir ipref) := by
  obtain ⟨dq', htracked, hlimit', hcharge, hkeep⟩ := chkiq_tracked h hlimit
  unfold IallocCharged IallocFinds
  cases fuel with
  | zero => cases hr
  | succ fuel =>
    unfold ufsIalloc at hr
    split at hr
    · next hzero =>
      cases hr
      exact ⟨fun _ hcharged => absurd hzero hcharged.1, fun _ => h.files⟩
    next hnz =>
    split at hr
    · next err q1 heq =>
      cases hr
      rw [heq] at htracked hkeep ⊢
      exact ⟨fun _ hcharged => (by cases hcharged.2), fun _ => by rw [htracked.files, hkeep (by simp)]; rfl⟩
    next q1 heq =>
    rw [heq] at htracked hcharge ⊢
    have hfiles : q1.files = some (dq.curfiles + 1) := by rw [htracked.files, hcharge rfl]
    have hcost : ¬q1.files = some dq.curfiles := by
      rw [hfiles, some.injEq]
      omega
    dsimp only at hr ⊢
    split at hr
    · next d1 hsearch =>
      cases hr
      rw [hsearch]
      exact ⟨fun hfollows => absurd hfollows hcost, fun hcond => absurd rfl (hcond ⟨hnz, rfl⟩).1⟩
    next ino d1 hne hsearch =>
    rw [hsearch]
    split at hr
    · next err hget =>
      cases hr
      refine ⟨fun hfollows => absurd hfollows hcost, fun hcond => ?_⟩
      have hok := (hcond ⟨hnz, rfl⟩).2
      rw [hget] at hok
      cases hok
    next mode hget =>
    split at hr
    · next hmode =>
      cases hr
      exact ⟨fun _ _ => ⟨hne, by rw [hget, hmode]⟩, fun _ => hfiles⟩
    · next hmode =>
      -- the second round charges the owner again
      obtain ⟨n, hn, hok⟩ := ufsIalloc_grows htracked hlimit' hr
      rw [hcharge rfl] at hn
      constructor
      · intro hfollows
        unfold Follows at hfollows
        split at hfollows
        · next ino' hino' =>
          have hone := hok ino' hino'
          rw [hn, some.injEq] at hfollows
          omega
        · rw [hn, some.injEq] at hfollows
          omega
      · intro hcond
        have hmode' := (hcond ⟨hnz, rfl⟩).2
        rw [hget, Except.ok.injEq] at hmode'
        exact absurd hmode' hmode

/-- What the owner is charged by a call of one of the three. -/
def UsageFollows : Prop :=
  (∀ (L : Layout) (d : Disk) (q : Quota) (dq : Dquot) (ino bpref size uid : Nat), Tracked q dq → LegalSize L size →
    Follows dq.curblocks (btodb size) (alloc L d q ino bpref size uid).1 (alloc L d q ino bpref size uid).2.2.blocks) ∧
  (∀ (L : Layout) (d : Disk) (q : Quota) (dq : Dquot) (bprev bpref osize nsize uid : Nat), Tracked q dq →
    LegalGrowth L osize nsize → Follows dq.curblocks (btodb (nsize - osize))
      (realloccg L d q bprev bpref osize nsize uid).1 (realloccg L d q bprev bpref osize nsize uid).2.2.blocks) ∧
  (∀ (L : Layout) (iget : Nat → Except Errno Nat) (d : Disk) (q : Quota) (dq : Dquot) (dir : Bool)
    (fuel ipref uid : Nat) (r : Except Errno Nat × Disk × Quota), Tracked q dq → FileLimit dq →
    ufsIalloc L iget dir uid fuel ipref d q = some r → Follows dq.curfiles 1 r.1 r.2.2.files)

/-- Usage follows a call exactly when the search behind a charge succeeds, for an inode at the first attempt. -/
theorem usage_follows_iff (h : Tracked q dq) :
    (∀ ino bpref size uid, LegalSize L size →
      (Follows dq.curblocks (btodb size) (alloc L d q ino bpref size uid).1 (alloc L d q ino bpref size uid).2.2.blocks ↔
        (AllocCharged L d q size uid → AllocFinds L d ino bpref size))) ∧
    (∀ bprev bpref osize nsize uid, LegalGrowth L osize nsize →
      (Follows dq.curblocks (btodb (nsize - osize)) (realloccg L d q bprev bpref osize nsize uid).1
          (realloccg L d q bprev bpref osize nsize uid).2.2.blocks ↔
        (ReallocCharged L d q bprev osize nsize uid → ReallocFinds L d bprev bpref osize nsize))) ∧
    (∀ (iget : Nat → Except Errno Nat) (dir : Bool) (fuel ipref uid : Nat) (r : Except Errno Nat × Disk × Quota),
      FileLimit dq → ufsIalloc L iget dir uid fuel ipref d q = some r →
      (Follows dq.curfiles 1 r.1 r.2.2.files ↔ (IallocCharged d q uid → IallocFinds L iget d dir ipref))) := by
  refine ⟨?_, ?_, ?_⟩
  · intro ino bpref size uid hsize
    exact alloc_follows_iff h hsize ino bpref uid
  · intro bprev bpref osize nsize uid hsize
    exact realloccg_follows_iff h hsize bprev bpref uid
  · intro iget dir fuel ipref uid r hlimit hr
    exact ufsIalloc_follows_iff h hlimit hr

def sampleDquot : Dquot where
  bhardlimit := 1000
  bsoftlimit := 900
  curblocks := 10
  fhardlimit := 100
  fsoftlimit := 90
  curfiles := 3
  btimelimit := 0
  ftimelimit := 0

def sampleQuota : Quota where
  enabled := true
  now := 1000
  vfsBtimelimit := 500
  vfsFtimelimit := 500
  dquot := some sampleDquot

theorem usage_follows_sample : Follows 10 2 (alloc sampleLayout sampleDisk sampleQuota 5 0 1024 7).1
    (alloc sampleLayout sampleDisk sampleQuota 5 0 1024 7).2.2.blocks := by
  have htracked : Tracked sampleQuota sampleDquot := ⟨rfl, rfl⟩
  have hsize : LegalSize sampleLayout 1024 := ⟨by decide, by decide, by decide⟩
  refine ((usage_follows_iff htracked).1 5 0 1024 7 hsize).mpr fun _ => ?_
  unfold AllocFinds
  decide +kernel

/-- A request of two fragments, where only one is free: the owner is charged and the call fails. -/
theorem usage_not_follows : ¬UsageFollows := by
  intro hall
  have hfollows := hall.1 sampleLayout sampleDisk sampleQuota sampleDquot 5 0 2048 7 ⟨rfl, rfl⟩
    ⟨by decide, by decide, by decide⟩
  have hfails : (alloc sampleLayout sampleDisk sampleQuota 5 0 2048 7).1 = .error .enospc := by decide +kernel
  have hcharged : (alloc sampleLayout sampleDisk sampleQuota 5 0 2048 7).2.2.blocks = some 14 := by decide +kernel
  rw [hfails, hcharged] at hfollows
  exact absurd hfollows (by unfold Follows; decide)

end Solaris.Ufs
