import Solaris.Routing.Table

/-!
# What every routing operation keeps

Deleting a route flushes the cache entries with its handle first, adding one flushes those it covers
better, and a walk that deletes the redirects of a gateway deletes the cache entries of the gateway too.
Only the redirects that vanish with a default route are not flushed.
-/

namespace Solaris.Routing

open List Option

variable {t t' t'' : Tables} {ire r c : Ire} {a gw : Addr} {going : Option Addr}

section Shrink

structure SameEntry (c c' : Ire) : Prop where
  type : c'.type = c.type
  addr : c'.addr = c.addr
  cmask : c'.cmask = c.cmask
  chandle : c'.chandle = c.chandle
  gateway : c'.gateway = c.gateway
  parent : c'.parent = c.parent

lemma SameEntry.refl (c : Ire) : SameEntry c c := ⟨rfl, rfl, rfl, rfl, rfl, rfl⟩

/-- Entries have only gone, or changed in what does not count. -/
structure Shrinks (t t' : Tables) : Prop where
  ftable : ∀ i tab' h r, t'.ftable i = some tab' → r ∈ tab' h → ∃ tab, t.ftable i = some tab ∧ r ∈ tab h
  ctable : ∀ h c', c' ∈ t'.ctable h → ∃ c ∈ t.ctable h, SameEntry c c'

lemma Shrinks.refl (t : Tables) : Shrinks t t :=
  ⟨fun _ tab _ _ htab hr => ⟨tab, htab, hr⟩, fun _ c hc => ⟨c, hc, SameEntry.refl c⟩⟩

lemma Shrinks.route (h : Shrinks t t') (hr : t'.Route r) : t.Route r := by
  obtain ⟨i, tab', k, htab', hmem⟩ := hr
  obtain ⟨tab, htab, hmem⟩ := h.ftable i tab' k r htab' hmem
  exact ⟨i, tab, k, htab, hmem⟩

lemma WellFormed.shrink (h : WellFormed t) (hs : Shrinks t t') : WellFormed t' := by
  refine ⟨?_, ?_⟩
  · intro i tab' k r htab' hmem
    obtain ⟨tab, htab, hmem⟩ := hs.ftable i tab' k r htab' hmem
    exact h.stored i tab k r htab hmem
  · intro k c' hc'
    obtain ⟨c, hc, -⟩ := hs.ctable k c' hc'
    exact h.size k c hc

lemma Shrinks.trans (h : Shrinks t t') (h' : Shrinks t' t'') : Shrinks t t'' := by
  refine ⟨?_, ?_⟩
  · intro i tab'' k r htab'' hmem
    obtain ⟨tab', htab', hmem⟩ := h'.ftable i tab'' k r htab'' hmem
    exact h.ftable i tab' k r htab' hmem
  · intro k c'' hc''
    obtain ⟨c', hc', h2⟩ := h'.ctable k c'' hc''
    obtain ⟨c, hc, h1⟩ := h.ctable k c' hc'
    exact ⟨c, hc, h2.type.trans h1.type, h2.addr.trans h1.addr, h2.cmask.trans h1.cmask,
      h2.chandle.trans h1.chandle, h2.gateway.trans h1.gateway, h2.parent.trans h1.parent⟩

lemma Kept.shrink (h : Kept t going) (hs : Shrinks t t')
    (halive : ∀ r c', t.Route r → t'.Cached c' → c'.parent = true → going ≠ some c'.gateway → r.chandle = c'.chandle →
      r.gateway = c'.gateway → t'.Route r) : Kept t' going := by
  refine ⟨h.wf.shrink hs, ?_⟩
  rintro c' ⟨htype, k, hmem⟩ hparent hgo
  obtain ⟨c, hc, hsame⟩ := hs.ctable k c' hmem
  have hp := h.parented c ⟨hsame.type ▸ htype, k, hc⟩ (hsame.parent ▸ hparent) (hsame.gateway ▸ hgo)
  obtain ⟨r, hr, hhandle, hgw⟩ := hp.alive
  have hhandle' := hhandle.trans hsame.chandle.symm
  have hgw' := hgw.trans hsame.gateway.symm
  refine ⟨hsame.cmask ▸ hp.contiguous, ⟨r, ?_, hhandle', hgw'⟩, ?_⟩
  · exact halive r c' hr ⟨htype, k, hmem⟩ hparent hgo hhandle' hgw'
  · intro r' hr' hc'
    rw [hsame.cmask]
    exact hp.longest r' (hs.route hr') (hsame.addr ▸ hc')

end Shrink

section Effects

lemma shrinks_deleteCaches (t : Tables) (p : Ire → Bool) : Shrinks t (deleteCaches t p) := by
  refine ⟨fun _ tab _ _ htab hr => ⟨tab, htab, hr⟩, ?_⟩
  intro k c hc
  exact ⟨c, mem_of_mem_filter hc, SameEntry.refl c⟩

lemma shrinks_unlink (t : Tables) (ire : Ire) : Shrinks t (unlink t ire) := by
  refine ⟨?_, ?_⟩
  · intro i tab' k r htab' hmem
    obtain ⟨tab, htab, rfl⟩ := map_eq_some_iff.mp htab'
    exact ⟨tab, htab, mem_of_mem_filter hmem⟩
  · intro k c hc
    exact ⟨c, mem_of_mem_filter hc, SameEntry.refl c⟩

lemma shrinks_redirects (t : Tables) (gw : Addr) : Shrinks t (ireDeleteHostRedirects t gw) := by
  refine ⟨?_, fun _ c hc => ⟨c, hc, SameEntry.refl c⟩⟩
  intro i tab' k r htab' hmem
  unfold ireDeleteHostRedirects at htab'
  by_cases hi : i = 32
  · subst hi
    obtain ⟨tab, htab, rfl⟩ := map_eq_some_iff.mp htab'
    exact ⟨tab, htab, mem_of_mem_filter hmem⟩
  · simp only [hi, if_false] at htab'
    exact ⟨tab', htab', hmem⟩

lemma route_unlink (hr : t.Route r) (hne : r ≠ ire) : (unlink t ire).Route r := by
  obtain ⟨i, tab, k, htab, hmem⟩ := hr
  refine ⟨i, fun h => (tab h).filter (· ≠ ire), k, ?_, ?_⟩
  · simp [unlink, htab]
  · simpa using ⟨hmem, hne⟩

lemma route_redirects (hr : t.Route r) (hne : ¬(r.type = .hostRedirect ∧ r.gateway = gw)) :
    (ireDeleteHostRedirects t gw).Route r := by
  obtain ⟨i, tab, k, htab, hmem⟩ := hr
  by_cases hi : i = 32
  · subst hi
    refine ⟨32, fun h => (tab h).filter fun ire => !(ire.type = .hostRedirect ∧ ire.gateway = gw), k, ?_, ?_⟩
    · simp [ireDeleteHostRedirects, htab]
    · rw [mem_filter]
      exact ⟨hmem, by simpa using not_and_or.mp hne⟩
  · exact ⟨i, tab, k, by simp [ireDeleteHostRedirects, hi, htab], hmem⟩

lemma shrinks_takeOff (t : Tables) (ire : Ire) (linked : Bool) : Shrinks t (takeOff t ire linked) := by
  unfold takeOff
  split
  · exact ⟨(shrinks_unlink t ire).ftable, (shrinks_unlink t ire).ctable⟩
  · exact Shrinks.refl t

lemma shrinks_ireDelete (t : Tables) (ire : Ire) (linked : Bool) : Shrinks t (ireDelete t ire linked) := by
  unfold ireDelete
  split
  · exact (shrinks_takeOff t ire linked).trans (shrinks_redirects ..)
  · exact shrinks_takeOff t ire linked

lemma route_ireDelete {linked : Bool} (hr : t.Route r) (hne : linked = true → r ≠ ire)
    (hred : ire.type = .defaultRoute → ¬(r.type = .hostRedirect ∧ r.gateway = ire.gateway)) :
    (ireDelete t ire linked).Route r := by
  have hoff : (takeOff t ire linked).Route r := by
    unfold takeOff
    split
    · rename_i hl
      exact route_unlink hr (hne hl)
    · exact hr
  unfold ireDelete
  split
  · rename_i hdef
    exact route_redirects hoff (hred hdef)
  · exact hoff

lemma shrinks_ireFlushCache (t : Tables) (ire : Ire) (add : Bool) : Shrinks t (ireFlushCache t ire add) := by
  unfold ireFlushCache
  split
  · exact Shrinks.refl t
  · split
    · exact Shrinks.refl t
    · split
      · exact shrinks_deleteCaches ..
      · exact shrinks_deleteCaches ..

lemma route_ireFlushCache {add : Bool} : (ireFlushCache t ire add).Route r ↔ t.Route r := by
  unfold ireFlushCache
  split
  · exact Iff.rfl
  · split
    · exact Iff.rfl
    · split <;> exact Iff.rfl

lemma cached_of_flush {add : Bool} (hc : (ireFlushCache t ire add).Cached c) : t.Cached c := by
  obtain ⟨htype, k, hmem⟩ := hc
  refine ⟨htype, k, ?_⟩
  unfold ireFlushCache at hmem
  split at hmem
  · exact hmem
  · split at hmem
    · exact hmem
    · split at hmem
      · exact mem_of_mem_filter hmem
      · exact mem_of_mem_filter hmem

lemma Kept.flush (h : Kept t going) (ire : Ire) (add : Bool) : Kept (ireFlushCache t ire add) going := by
  refine h.shrink (shrinks_ireFlushCache t ire add) ?_
  intro r c' hr _ _ _ _ _
  exact route_ireFlushCache.mpr hr

lemma chandle_ne_of_flush (hf : ire.type.cachetable = false) (hc : (ireFlushCache t ire false).Cached c) :
    c.chandle ≠ ire.chandle := by
  obtain ⟨htype, k, hmem⟩ := hc
  unfold ireFlushCache at hmem
  rw [if_neg (by simp [hf]), if_neg (by simp), if_neg (by simp)] at hmem
  have := (mem_filter.mp hmem).2
  simpa [htype] using this

end Effects

section Delete

/-- The condition under which a default route can be deleted: no cache entry that stays has the handle of
a redirect through the same gateway. -/
def SparesRedirects (t : Tables) (ire : Ire) : Prop :=
  ire.type = .defaultRoute → ∀ r c, t.Route r → r.type = .hostRedirect → r.gateway = ire.gateway → t.Cached c →
    c.parent = true → c.chandle ≠ r.chandle

lemma Kept.deleteRoute (h : Kept t going) (hf : ire.type.cachetable = false)
    (hspare : SparesRedirects (ireFlushCache t ire false) ire) :
    Kept (ireDelete (ireFlushCache t ire false) ire true) going := by
  have hsh := shrinks_ireDelete (ireFlushCache t ire false) ire true
  refine (h.flush ire false).shrink hsh ?_
  rintro r c' hr ⟨htype, k, hmem⟩ hparent - hhandle -
  obtain ⟨c, hc, hsame⟩ := hsh.ctable k c' hmem
  have hcached : (ireFlushCache t ire false).Cached c := ⟨hsame.type ▸ htype, k, hc⟩
  have hne := chandle_ne_of_flush hf hcached
  refine route_ireDelete hr ?_ ?_
  · rintro - rfl
    exact hne (hsame.chandle.symm.trans hhandle.symm)
  · rintro hdef ⟨hred, hgw⟩
    exact hspare hdef r c hr hred hgw hcached (hsame.parent ▸ hparent) (hsame.chandle.symm.trans hhandle.symm)

/-- The deletion of an entry that is not a default route and on no chain of the forwarding table. -/
theorem Kept.deleteCache (h : Kept t going) (htype : ire.type = .cache) : Kept (ireDelete t ire true) going := by
  refine h.shrink (shrinks_ireDelete t ire true) ?_
  intro r c' hr _ _ _ _ _
  refine route_ireDelete hr ?_ ?_
  · rintro - rfl
    obtain ⟨i, k, hstored⟩ := h.wf.route hr
    have := hstored.forward
    rw [htype] at this
    cases this
  · rw [htype]
    intro hdef
    cases hdef

lemma Kept.updateCache (h : Kept t going) {new : Ire} (hsame : SameEntry ire new) :
    Kept (updateCache t ire new) going := by
  have hsh : Shrinks t (Routing.updateCache t ire new) := by
    refine ⟨fun _ tab _ _ htab hr => ⟨tab, htab, hr⟩, ?_⟩
    intro k c' hc'
    obtain ⟨c, hc, rfl⟩ := mem_map.mp hc'
    refine ⟨c, hc, ?_⟩
    split
    · rename_i heq
      rw [heq]
      exact hsame
    · exact SameEntry.refl c
  exact h.shrink hsh fun r c' hr _ _ _ _ _ => hr

lemma Kept.expire (h : Kept t going) (e : Expiry) (ire : Ire) : Kept (ireExpire e t ire) going := by
  unfold ireExpire
  split
  · rename_i hred
    refine h.deleteRoute (by rw [hred.2]; rfl) ?_
    rw [SparesRedirects, hred.2]
    intro hdef
    cases hdef
  split
  · exact h
  rename_i htype
  have hcache := not_not.mp htype
  split
  · exact h.deleteCache hcache
  · split
    · exact h.deleteCache hcache
    · exact h.updateCache ⟨rfl, rfl, rfl, rfl, rfl, rfl⟩

end Delete

section Walk

lemma ireWalk_rule {P : Tables → Prop} {f : Tables → Ire → Tables} (hf : ∀ t ire, P t → P (f t ire)) (h : P t) :
    P (walkForward f t) ∧ P (ireWalk f t) := by
  have hchain : ∀ (l : List Ire) t, P t → P (ireWalk1 f t l) := by
    intro l
    induction l with
    | nil => exact fun t ht => ht
    | cons ire l ih => exact fun t ht => ih _ (hf t ire ht)
  have hfold : ∀ (l : List Nat) (g : Tables → Nat → Tables), (∀ t i, P t → P (g t i)) → ∀ t, P t → P (l.foldl g t) := by
    intro l g hg
    induction l with
    | nil => exact fun t ht => ht
    | cons i l ih => exact fun t ht => ih _ (hg t i ht)
  have hforward : P (walkForward f t) := by
    refine hfold _ _ ?_ t h
    intro t i ht
    exact hfold _ _ (fun t j ht => hchain _ t ht) t ht
  exact ⟨hforward, hfold _ _ (fun t j ht => hchain _ t ht) _ hforward⟩

lemma Kept.deleteGw (h : Kept t (some gw)) (ire : Ire) : Kept (ireDeleteRouteGw gw t ire) (some gw) := by
  unfold ireDeleteRouteGw
  split
  · rename_i hcond
    refine h.shrink (shrinks_ireDelete t ire true) ?_
    intro r c' hr _ _ hgo _ hgw
    refine route_ireDelete hr ?_ ?_
    · rintro - rfl
      exact hgo (by rw [← hgw, hcond.2])
    · intro hdef
      rcases hcond.1 with htype | htype
      · rw [htype] at hdef
        cases hdef
      · rw [htype] at hdef
        cases hdef
  · exact h

lemma walk1_deleteGw (gw : Addr) (l : List Ire) (t : Tables) {k : Nat}
    (hc : c ∈ (ireWalk1 (ireDeleteRouteGw gw) t l).ctable k) :
    c ∈ t.ctable k ∧ (c ∈ l → c.type = .cache → c.gateway ≠ gw) := by
  induction l generalizing t with
  | nil => exact ⟨hc, fun h => by cases h⟩
  | cons ire l ih =>
    obtain ⟨hmem, hgone⟩ := ih _ hc
    have hstep : c ∈ t.ctable k ∧ (c = ire → c.type = .cache → c.gateway ≠ gw) := by
      unfold ireDeleteRouteGw at hmem
      split at hmem
      · rename_i hcond
        have hnd : ire.type ≠ .defaultRoute := by
          rcases hcond.1 with htype | htype
          · rw [htype]
            decide
          · rw [htype]
            decide
        rw [ireDelete, if_neg hnd, takeOff, if_pos rfl] at hmem
        obtain ⟨hmem, hne⟩ := mem_filter.mp hmem
        exact ⟨hmem, fun heq => absurd heq (by simpa using hne)⟩
      · rename_i hcond
        refine ⟨hmem, ?_⟩
        rintro rfl htype hgw
        exact hcond ⟨.inl htype, hgw⟩
    refine ⟨hstep.1, ?_⟩
    intro hcl
    rcases mem_cons.mp hcl with rfl | hcl
    · exact hstep.2 rfl
    · exact hgone hcl

lemma walkCache_deleteGw (gw : Addr) (n : Nat) (t : Tables) {k : Nat}
    (hc : c ∈ ((List.range n).foldl (fun t j => ireWalk1 (ireDeleteRouteGw gw) t (t.ctable j)) t).ctable k) :
    c ∈ t.ctable k ∧ (k < n → c.type = .cache → c.gateway ≠ gw) := by
  induction n with
  | zero => exact ⟨hc, fun h => absurd h (Nat.not_lt_zero _)⟩
  | succ n ih =>
    rw [range_succ, foldl_append, foldl_cons, foldl_nil] at hc
    obtain ⟨hmem, hgone⟩ := walk1_deleteGw gw _ _ hc
    obtain ⟨hmem', hgone'⟩ := ih hmem
    refine ⟨hmem', ?_⟩
    intro hk
    by_cases hkn : k = n
    · subst hkn
      exact hgone hmem
    · exact hgone' (by omega)

lemma Kept.walkGw (h : Kept t none) (gw : Addr) : Kept (ireWalk (ireDeleteRouteGw gw) t) none := by
  have hgo : Kept t (some gw) := ⟨h.wf, fun c hc hparent _ => h.parented c hc hparent (by simp)⟩
  obtain ⟨hforward, hwalk⟩ := ireWalk_rule (P := fun t => Kept t (some gw)) (fun t ire ht => ht.deleteGw ire) hgo
  refine ⟨hwalk.wf, ?_⟩
  rintro c ⟨htype, k, hmem⟩ hparent -
  refine hwalk.parented c ⟨htype, k, hmem⟩ hparent ?_
  rw [ireWalk, walkCache] at hmem
  obtain ⟨hmem', hgone⟩ := walkCache_deleteGw gw ipCacheTableSize _ hmem
  have hne := hgone (hforward.wf.size k c hmem') htype
  intro heq
  exact hne (some.inj heq).symm

end Walk

end Solaris.Routing
