import EmbedTemplate.Pci.Sizing
import Mathlib.Data.Set.Card
import Mathlib.Data.List.Nodup

/-! # The bus tree

What a scan is to find: the functions that are present on the buses reachable from a bus, and
the order in which a depth-first walk over devices and functions meets them. Everything is
read off the registers that sizing does not touch.
-/
namespace EmbedTemplate.Pci
variable {σ : Type*} (pci : Ecam σ) (s : σ)

def Ecam.idReg (f : Func) : BitVec 32 := pci.readDword s f pciConfigVendorId
def Ecam.present (f : Func) : Bool := !absent (vendorOf (pci.idReg s f))

/-- The number of functions that device `dev` of the bus is asked for. -/
def Ecam.functions (bus dev : ℕ) : ℕ :=
  if headerOf (pci.readDword s ⟨bus,dev,0⟩ 0x0C) &&& 0x80 ≠ 0 then maxFunctions else 1

/-- A function is there: function 0 answers, and a further function of a multi-function device. -/
structure OnBus (f : Func) : Prop where
  dev : f.dev < maxPciDevices
  device : pci.present s ⟨f.bus,f.dev,0⟩ = true
  func : f.func < pci.functions s f.bus f.dev
  present : pci.present s f = true

def Ecam.isEndpoint (f : Func) : Bool := pci.headerType s f = headerTypeEndpoint
def Ecam.isBridge (f : Func) : Bool := pci.headerType s f = headerTypeBridge
def Ecam.secondaryBus (f : Func) : ℕ := busByte (pci.readDword s f pciConfigPrimaryBus) 1

/-- The buses reachable from a bus. -/
inductive Reachable (root : ℕ) : ℕ → Prop where
  | root : Reachable root root
  | behind {f : Func} (hbus : Reachable root f.bus) (hf : OnBus pci s f) (hbridge : pci.isBridge s f = true) :
      Reachable root (pci.secondaryBus s f)

/-- The endpoints and the bridges on the reachable buses. -/
def endpoints (root : ℕ) : Set Func := {f | Reachable pci s root f.bus ∧ OnBus pci s f ∧ pci.isEndpoint s f = true}
def bridges (root : ℕ) : Set Func := {f | Reachable pci s root f.bus ∧ OnBus pci s f ∧ pci.isBridge s f = true}

/-- The functions of a device, in order. -/
def deviceFunctions (bus dev : ℕ) : List Func :=
  if pci.present s ⟨bus,dev,0⟩ then
    ((List.range (pci.functions s bus dev)).map (Func.mk bus dev)).filter (pci.present s)
  else []

/-- The functions of a bus, in order. -/
def busFunctions (bus : ℕ) : List Func := (List.range maxPciDevices).flatMap (deviceFunctions pci s bus)

/-- A function and, behind a bridge, what is below it. -/
def visit (below : ℕ → List Func) (f : Func) : List Func :=
  f :: if pci.isBridge s f && decide (pci.secondaryBus s f > f.bus) then below (pci.secondaryBus s f) else []

/-- The depth-first walk. -/
def walk : ℕ → ℕ → List Func
  | 0, _ => []
  | depth + 1, bus => (busFunctions pci s bus).flatMap (visit pci s (walk depth))

variable {pci s}

theorem mem_deviceFunctions {bus dev : ℕ} {f : Func} (h : f ∈ deviceFunctions pci s bus dev) :
    f.bus = bus ∧ f.dev = dev ∧ pci.present s ⟨bus,dev,0⟩ = true ∧ f.func < pci.functions s bus dev ∧
      pci.present s f = true := by
  rw [deviceFunctions] at h
  split at h
  · rename_i hpresent
    rw [List.mem_filter,List.mem_map] at h
    obtain ⟨⟨func,hfunc,rfl⟩,hf⟩ := h
    exact ⟨rfl,rfl,hpresent,List.mem_range.mp hfunc,hf⟩
  · cases h

theorem mem_busFunctions {bus : ℕ} {f : Func} : f ∈ busFunctions pci s bus ↔ f.bus = bus ∧ OnBus pci s f := by
  rw [busFunctions,List.mem_flatMap]
  constructor
  · rintro ⟨dev,hdev,hmem⟩
    obtain ⟨rfl,rfl,hdevice,hfunc,hpresent⟩ := mem_deviceFunctions hmem
    exact ⟨rfl,List.mem_range.mp hdev,hdevice,hfunc,hpresent⟩
  · rintro ⟨rfl,hdev,hdevice,hfunc,hpresent⟩
    refine ⟨f.dev,List.mem_range.mpr hdev,?_⟩
    rw [deviceFunctions,if_pos hdevice,List.mem_filter,List.mem_map]
    exact ⟨⟨f.func,List.mem_range.mpr hfunc,rfl⟩,hpresent⟩

theorem busFunctions_nodup (bus : ℕ) : (busFunctions pci s bus).Nodup := by
  rw [busFunctions,List.nodup_flatMap]
  constructor
  · intro dev _
    rw [deviceFunctions]
    split
    · refine (List.Nodup.map ?_ List.nodup_range).filter _
      intro func func' h
      exact congrArg Func.func h
    · exact List.nodup_nil
  · refine List.nodup_range.imp_of_mem ?_
    intro dev dev' _ _ hne f hmem hmem'
    exact hne ((mem_deviceFunctions hmem).2.1.symm.trans (mem_deviceFunctions hmem').2.1)

/-- A topology in which bridges lead to larger buses, and no two to the same bus. -/
structure BusTree (pci : Ecam σ) (s : σ) (root : ℕ) : Prop where
  larger : ∀ f ∈ bridges pci s root, f.bus < pci.secondaryBus s f
  distinct : ∀ f ∈ bridges pci s root, ∀ g ∈ bridges pci s root, pci.secondaryBus s f = pci.secondaryBus s g → f = g

section Reachable
variable {root a b c : ℕ} {f g : Func}

theorem Reachable.trans (hab : Reachable pci s a b) (hbc : Reachable pci s b c) : Reachable pci s a c := by
  induction hbc with
  | root => exact hab
  | behind _ hf hbridge ih => exact .behind ih hf hbridge

theorem Reachable.head (h : Reachable pci s a b) :
    b = a ∨ ∃ f, f.bus = a ∧ OnBus pci s f ∧ pci.isBridge s f = true ∧ Reachable pci s (pci.secondaryBus s f) b := by
  induction h with
  | root => exact .inl rfl
  | @behind g hbus hg hbridge ih =>
    right
    obtain heq | ⟨f,hf,hon,hfb,hrest⟩ := ih
    · exact ⟨g,heq,hg,hbridge,.root⟩
    · exact ⟨f,hf,hon,hfb,.behind hrest hg hbridge⟩

theorem BusTree.le (ht : BusTree pci s root) (ha : Reachable pci s root a) (h : Reachable pci s a b) : a ≤ b := by
  induction h with
  | root => exact Nat.le_refl a
  | behind hbus hf hbridge ih => exact ih.trans (ht.larger _ ⟨ha.trans hbus,hf,hbridge⟩).le

theorem BusTree.chain (ht : BusTree pci s root) (ha : Reachable pci s root a) (hc : Reachable pci s root c)
    (hab : Reachable pci s a b) (hcb : Reachable pci s c b) : Reachable pci s a c ∨ Reachable pci s c a := by
  induction hab with
  | root => exact .inr hcb
  | @behind f hbus hf hbridge ih =>
    have hreach := Reachable.behind hbus hf hbridge
    generalize hsec : pci.secondaryBus s f = b at hcb hreach
    cases hcb with
    | root => exact .inl hreach
    | @behind g hbus' hg hbridge' =>
      obtain rfl : f = g := ht.distinct f ⟨ha.trans hbus,hf,hbridge⟩ g ⟨hc.trans hbus',hg,hbridge'⟩ hsec
      exact ih hbus'

theorem BusTree.apart (ht : BusTree pci s root) (hf : f ∈ bridges pci s root) (hg : g ∈ bridges pci s root)
    (hbus : f.bus = g.bus) (hfb : Reachable pci s (pci.secondaryBus s f) b)
    (hgb : Reachable pci s (pci.secondaryBus s g) b) : f = g := by
  have hsecond : ∀ f ∈ bridges pci s root, Reachable pci s root (pci.secondaryBus s f) :=
    fun f hf => .behind hf.1 hf.2.1 hf.2.2
  have hdown : ∀ f ∈ bridges pci s root, ∀ g ∈ bridges pci s root, f.bus = g.bus →
      Reachable pci s (pci.secondaryBus s f) (pci.secondaryBus s g) → f = g := by
    intro f hf g hg hbus h
    generalize hsec : pci.secondaryBus s g = c at h
    cases h with
    | root => exact ht.distinct f hf g hg hsec.symm
    | @behind k hk hon hbridge =>
      obtain rfl : g = k := ht.distinct g hg k ⟨(hsecond f hf).trans hk,hon,hbridge⟩ hsec
      have hle := ht.le (hsecond f hf) hk
      have hlt := ht.larger f hf
      omega
  obtain h | h := ht.chain (hsecond f hf) (hsecond g hg) hfb hgb
  · exact hdown f hf g hg hbus h
  · exact (hdown g hg f hf hbus.symm h).symm

end Reachable

section Walk
variable {root bus depth : ℕ} {f : Func}

theorem mem_visit {below : ℕ → List Func} {g : Func} : f ∈ visit pci s below g ↔
    f = g ∨ pci.isBridge s g = true ∧ g.bus < pci.secondaryBus s g ∧ f ∈ below (pci.secondaryBus s g) := by
  rw [visit,List.mem_cons]
  refine or_congr_right ?_
  constructor
  · intro hmem
    split at hmem
    · rename_i hcond
      rw [Bool.and_eq_true,decide_eq_true_iff] at hcond
      exact ⟨hcond.1,hcond.2,hmem⟩
    · cases hmem
  · rintro ⟨hbridge,hlt,hmem⟩
    rw [hbridge,Bool.true_and,if_pos (decide_eq_true hlt)]
    exact hmem

theorem reachable_of_mem_walk (h : f ∈ walk pci s depth bus) : Reachable pci s bus f.bus ∧ OnBus pci s f := by
  induction depth generalizing bus with
  | zero => cases h
  | succ depth ih =>
    obtain ⟨g,hg,hmem⟩ := List.mem_flatMap.mp h
    obtain ⟨hbus,hon⟩ := mem_busFunctions.mp hg
    obtain rfl | ⟨hbridge,_,hmem⟩ := mem_visit.mp hmem
    · rw [hbus]
      exact ⟨.root,hon⟩
    · obtain ⟨hreach,hf⟩ := ih hmem
      refine ⟨Reachable.trans (.behind ?_ hon hbridge) hreach,hf⟩
      rw [hbus]
      exact .root

/-- A walk that is as deep as there are larger buses meets every function behind its bus. -/
theorem BusTree.mem_walk (ht : BusTree pci s root) (hbus : Reachable pci s root bus) (hdepth : 256 ≤ bus + depth)
    (hlt : bus < 256) : f ∈ walk pci s depth bus ↔ Reachable pci s bus f.bus ∧ OnBus pci s f := by
  refine ⟨reachable_of_mem_walk,?_⟩
  rintro ⟨hreach,hon⟩
  induction depth generalizing bus with
  | zero => omega
  | succ depth ih =>
    rw [walk,List.mem_flatMap]
    obtain heq | ⟨g,hg,hgon,hbridge,hrest⟩ := hreach.head
    · exact ⟨f,mem_busFunctions.mpr ⟨heq,hon⟩,mem_visit.mpr (.inl rfl)⟩
    · have hlarger := ht.larger g ⟨hg ▸ hbus,hgon,hbridge⟩
      refine ⟨g,mem_busFunctions.mpr ⟨hg,hgon⟩,mem_visit.mpr (.inr ⟨hbridge,hlarger,?_⟩)⟩
      exact ih (.behind (hg ▸ hbus) hgon hbridge) (by omega) (busByte_lt _ _) hrest

theorem BusTree.walk_nodup (ht : BusTree pci s root) (hbus : Reachable pci s root bus) :
    (walk pci s depth bus).Nodup := by
  induction depth generalizing bus with
  | zero => exact List.nodup_nil
  | succ depth ih =>
    have hbelow : ∀ f ∈ busFunctions pci s bus, ∀ g ∈ visit pci s (walk pci s depth) f, g = f ∨
        f ∈ bridges pci s root ∧ Reachable pci s (pci.secondaryBus s f) g.bus ∧ bus < g.bus := by
      intro f hf g hg
      obtain ⟨hfbus,hon⟩ := mem_busFunctions.mp hf
      obtain rfl | ⟨hbridge,hlt,hmem⟩ := mem_visit.mp hg
      · exact .inl rfl
      · obtain ⟨hreach,_⟩ := reachable_of_mem_walk hmem
        have hle := ht.le (.behind (hfbus ▸ hbus) hon hbridge) hreach
        exact .inr ⟨⟨hfbus ▸ hbus,hon,hbridge⟩,hreach,by omega⟩
    rw [walk,List.nodup_flatMap]
    constructor
    · intro f hf
      obtain ⟨hfbus,hon⟩ := mem_busFunctions.mp hf
      rw [visit]
      split
      · rename_i hcond
        rw [Bool.and_eq_true,decide_eq_true_iff] at hcond
        have hbehind : Reachable pci s root (pci.secondaryBus s f) := .behind (hfbus ▸ hbus) hon hcond.1
        refine List.nodup_cons.mpr ⟨fun hmem => ?_,ih hbehind⟩
        have hle := ht.le hbehind (reachable_of_mem_walk hmem).1
        omega
      · exact List.nodup_singleton f
    · refine (busFunctions_nodup bus).imp_of_mem ?_
      intro f g hf hg hne k hkf hkg
      have hfbus := (mem_busFunctions.mp hf).1
      have hgbus := (mem_busFunctions.mp hg).1
      obtain rfl | ⟨hfb,hfk,hlt⟩ := hbelow f hf k hkf
      · obtain rfl | ⟨_,_,hlt⟩ := hbelow g hg k hkg
        · exact hne rfl
        · omega
      · obtain rfl | ⟨hgb,hgk,_⟩ := hbelow g hg k hkg
        · omega
        · exact hne (ht.apart hfb hgb (hfbus.trans hgbus.symm) hfk hgk)

end Walk

end EmbedTemplate.Pci
