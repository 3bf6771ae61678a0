import Solaris.Routing.Runs

/-!
# Protected entries and failed allocations

`ire_walk1` protects the entry it visits, so that a deletion of it is put off until the visit is over;
`ire_add` may fail to allocate the copy of an entry or the table of a mask. The marks of an entry are
kept beside the tables, by its `id`.
-/

namespace Solaris.Routing

section Marks

/-- `IRE_MARK_PROTECTED` and `IRE_MARK_CONDEMNED` -/
structure Marks where
  guarded : Bool
  condemned : Bool

structure Marked where
  tables : Tables
  marks : Nat → Marks

/-- Which of the allocations of `ire_add` succeed: the copy of an entry in a message, the table of a mask. -/
structure Memory where
  copy : Bool
  table : Bool

def Tables.chain (t : Tables) (i h : Nat) : List Ire := ((t.ftable i).map fun tab => tab h).getD []

namespace Marked

section Delete

variable (s : Marked)

def guarded (ire : Ire) : Bool := (s.marks ire.id).guarded

/-- The redirects to the gateway that are on a chain of the host table. -/
def redirectsTo (gateway : Addr) : List Ire :=
  ((List.range ipHashTableSize).flatMap fun h => s.tables.chain 32 h).filter fun ire =>
    ire.type = .hostRedirect ∧ ire.gateway = gateway

/-- `ire_delete_host_redirects`: what is protected is condemned, the others go. -/
def ireDeleteHostRedirects (gateway : Addr) : Marked where
  tables :=
    { s.tables with
      ftable := fun i =>
        if i = 32 then
          (s.tables.ftable 32).map fun tab h =>
            (tab h).filter fun ire => !(ire.type = .hostRedirect ∧ ire.gateway = gateway ∧ s.guarded ire = false)
        else s.tables.ftable i }
  marks := fun id =>
    if (s.marks id).guarded ∧ id ∈ (s.redirectsTo gateway).map (·.id) then { s.marks id with condemned := true }
    else s.marks id

/-- `ire_delete`: "Whoever protected this IRE will delete it." -/
def ireDelete (ire : Ire) (linked : Bool) : Marked :=
  if s.guarded ire then
    { s with marks := Function.update s.marks ire.id { s.marks ire.id with condemned := true } }
  else if ire.type = .defaultRoute then
    ireDeleteHostRedirects { s with tables := takeOff s.tables ire linked } ire.gateway
  else { s with tables := takeOff s.tables ire linked }

end Delete

section Add

variable (s : Marked)

def HasTable (ire : Ire) (mem : Memory) : Prop :=
  ire.type.cachetable = true ∨ (s.tables.ftable (ipMaskIndex ire.mask)).isSome = true ∨ mem.table = true

instance (ire : Ire) (mem : Memory) : Decidable (s.HasTable ire mem) := by
  unfold HasTable
  infer_instance

/-- The part of `ire_add` from the search for a duplicate on. -/
def addCounted (ire : Ire) (mem : Memory) : Option Ire × Marked :=
  match findDuplicate s.tables ire with
  | some old => (some old, s.ireDelete ire false)
  | none =>
    if s.HasTable ire mem then (some ire, { s with tables := insertIre s.tables ire })
    else (none, s.ireDelete ire false)

def ireAdd (ire : Ire) (mem : Memory) : Option Ire × Marked :=
  if mem.copy = false then (none, s.ireDelete ire false)
  else addCounted { s with tables := countGateway s.tables (normalize ire) } (normalize ire) mem

end Add

section Walk

variable (s : Marked)

def protect (ire : Ire) : Marked :=
  { s with marks := Function.update s.marks ire.id { s.marks ire.id with guarded := true } }

/-- The walk has visited the entry, and deletes it if that was asked for. -/
def unprotect (ire : Ire) : Marked :=
  let s' := { s with marks := Function.update s.marks ire.id { s.marks ire.id with guarded := false } }
  if (s.marks ire.id).condemned then s'.ireDelete ire true else s'

end Walk

end Marked

section Gateways

variable (t : Tables)

/-- The number of `IRE_DEFAULT` entries. -/
def Tables.gateways : Nat := t.routes.countP fun ire => ire.type = .defaultRoute

/-- `while (u1--) gw_ire = gw_ire->ire_next;` in `ip_ire_delete`: `none` when the list ends before. -/
def walkGateways : Option Ire := (t.chain 0 0)[t.defGatewayIndex % t.defGatewayCount]?

/-- The walk is made when there is a gateway and the list is not empty. -/
def WalkStays : Prop := t.defGatewayCount ≠ 0 → t.chain 0 0 ≠ [] → (walkGateways t).isSome = true

/-- "Skip past the potentially bad gateway" -/
def skipGateway (gateway : Addr) : Tables :=
  if t.defGatewayCount ≠ 0 ∧ (walkGateways t).any fun ire => ire.gateway = gateway then
    { t with defGatewayIndex := t.defGatewayIndex + 1 }
  else t

end Gateways

section Runs

inductive Act where
  | add (new : NewIre) (mem : Memory)
  | delete (ire : Ire)
  | protect (ire : Ire)
  | unprotect (ire : Ire)
  | lookup (addr : Addr)
  | skip (gateway : Addr)

/-- The entry that is created for `ire_add`, and the tables it is created in. -/
def Marked.create (s : Marked) (new : NewIre) : Marked := { s with tables := (ireCreate s.tables new none).2 }

def Act.apply (s : Marked) : Act → Marked
  | .add new mem => ((s.create new).ireAdd (ireCreate s.tables new none).1 mem).2
  | .delete ire => s.ireDelete ire true
  | .protect ire => s.protect ire
  | .unprotect ire => s.unprotect ire
  | .lookup addr => { s with tables := (ireFtableLookup s.tables addr).2 }
  | .skip gateway => { s with tables := skipGateway s.tables gateway }

def Tables.Linked (t : Tables) (ire : Ire) : Prop := ire ∈ t.routes ∨ ∃ h, ire ∈ t.ctable h

/-- What is deleted, protected or no longer protected is on a chain; only what was protected is unprotected. -/
def Act.Legal (s : Marked) : Act → Prop
  | .delete ire => s.tables.Linked ire
  | .protect ire => s.tables.Linked ire
  | .unprotect ire => s.tables.Linked ire ∧ s.guarded ire = true
  | _ => True

def Marked.initial : Marked := ⟨Routing.initial, fun _ => ⟨false, false⟩⟩

/-- The states that runs lead to whose acts all satisfy a condition. -/
inductive Reached (P : Marked → Act → Prop) : Marked → Prop
  | initial : Reached P Marked.initial
  | act {s : Marked} (a : Act) : Reached P s → a.Legal s → P s a → Reached P (a.apply s)

end Runs

end Marks

/-!
## Where the entries stand

Whatever is added and deleted, an entry of the forwarding table stands in the table of its mask, in the chain of its
masked address.
-/

section Places

variable {t : Tables} {ire r : Ire} {s : Marked} {i k : Nat} {tab' : Nat → List Ire}

/-- The entry stands in the chain of its mask and its address. -/
structure Placed (i h : Nat) (r : Ire) : Prop where
  index : ipMaskIndex r.mask = i
  hash : ineAddrHash (r.addr &&& r.mask) ipHashTableSize = h
  forward : r.type.cachetable = false

lemma shrinks_marked_redirects (s : Marked) (gateway : Addr) :
    Shrinks s.tables (s.ireDeleteHostRedirects gateway).tables := by
  refine ⟨?_, fun _ c hc => ⟨c, hc, SameEntry.refl c⟩⟩
  intro i tab' k r htab' hmem
  unfold Marked.ireDeleteHostRedirects at htab'
  by_cases hi : i = 32
  · subst hi
    obtain ⟨tab, htab, rfl⟩ := Option.map_eq_some_iff.mp htab'
    exact ⟨tab, htab, List.mem_of_mem_filter hmem⟩
  · simp only [hi, if_false] at htab'
    exact ⟨tab', htab', hmem⟩

lemma shrinks_marked_delete (s : Marked) (ire : Ire) (linked : Bool) :
    Shrinks s.tables (s.ireDelete ire linked).tables := by
  unfold Marked.ireDelete
  split
  · exact Shrinks.refl _
  · split
    · exact (shrinks_takeOff s.tables ire linked).trans
        (shrinks_marked_redirects { s with tables := takeOff s.tables ire linked } ire.gateway)
    · exact shrinks_takeOff s.tables ire linked

lemma shrinks_unprotect (s : Marked) (ire : Ire) : Shrinks s.tables (s.unprotect ire).tables := by
  unfold Marked.unprotect
  split
  · exact shrinks_marked_delete { s with marks := Function.update s.marks ire.id { s.marks ire.id with guarded := false } }
      ire true
  · exact Shrinks.refl _

lemma skipGateway_tables (t : Tables) (gateway : Addr) :
    (skipGateway t gateway).ftable = t.ftable ∧ (skipGateway t gateway).ctable = t.ctable := by
  unfold skipGateway
  split
  · exact ⟨rfl, rfl⟩
  · exact ⟨rfl, rfl⟩

theorem mem_addCounted {mem : Memory} (htab' : (s.addCounted ire mem).2.tables.ftable i = some tab') (hr : r ∈ tab' k) :
    (r = ire ∧ Placed i k r) ∨ ∃ tab, s.tables.ftable i = some tab ∧ r ∈ tab k := by
  unfold Marked.addCounted at htab'
  cases hd : findDuplicate s.tables ire with
  | some old =>
    rw [hd] at htab'
    exact .inr ((shrinks_marked_delete s ire false).ftable i tab' k r htab' hr)
  | none =>
    rw [hd] at htab'
    simp only at htab'
    split at htab'
    · by_cases hf : ire.type.cachetable = true
      · rw [ftable_insertIre_of_cache hf] at htab'
        exact .inr ⟨tab', htab', hr⟩
      · have hf' : ire.type.cachetable = false := Bool.eq_false_iff.mpr hf
        rcases mem_insertIre hf' htab' hr with ⟨rfl, rfl, rfl⟩ | hold
        · exact .inl ⟨rfl, rfl, rfl, hf'⟩
        · exact .inr hold
    · exact .inr ((shrinks_marked_delete s ire false).ftable i tab' k r htab' hr)

theorem mem_act (a : Act) (htab' : (a.apply s).tables.ftable i = some tab') (hr : r ∈ tab' k) :
    (∃ new mem, a = .add new mem ∧ r = newRoute s.tables new ∧ Placed i k r) ∨
      ∃ tab, s.tables.ftable i = some tab ∧ r ∈ tab k := by
  cases a with
  | add new mem =>
    simp only [Act.apply, Marked.ireAdd] at htab'
    split at htab'
    · exact .inr ((shrinks_marked_delete (s.create new) _ false).ftable i tab' k r htab' hr)
    · rcases mem_addCounted htab' hr with ⟨rfl, hplaced⟩ | hold
      · exact .inl ⟨new, mem, rfl, rfl, hplaced⟩
      · exact .inr hold
  | delete ire => exact .inr ((shrinks_marked_delete s ire true).ftable i tab' k r htab' hr)
  | protect ire => exact .inr ⟨tab', htab', hr⟩
  | unprotect ire => exact .inr ((shrinks_unprotect s ire).ftable i tab' k r htab' hr)
  | lookup addr => exact .inr ⟨tab', ftable_lookup s.tables addr ▸ htab', hr⟩
  | skip gateway => exact .inr ⟨tab', (skipGateway_tables s.tables gateway).1 ▸ htab', hr⟩

theorem placed_of_reached {P : Marked → Act → Prop} {Q : Ire → Prop}
    (hQ : ∀ s new mem, P s (.add new mem) → Q (newRoute s.tables new)) (h : Reached P s) :
    ∀ i tab k r, s.tables.ftable i = some tab → r ∈ tab k → Placed i k r ∧ Q r := by
  induction h with
  | initial =>
    intro i tab k r htab
    cases htab
  | act a _ _ hp ih =>
    intro i tab' k r htab' hr
    rcases mem_act a htab' hr with ⟨new, mem, rfl, rfl, hplaced⟩ | ⟨tab, htab, hr⟩
    · exact ⟨hplaced, hQ _ new mem hp⟩
    · exact ih i tab k r htab hr

end Places

end Solaris.Routing
