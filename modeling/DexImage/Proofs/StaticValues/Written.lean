import DexImage.Proofs.Layout.Stored
import DexImage.Proofs.StaticValues.Carried
/-! # Static fields and their values in what is written

Before an image is written its items are brought up to date: the static fields of class data come in the order of
their indices, while values keep their places.
-/

namespace DexImage

open Pools

namespace Counterparts

/-- What names are made of is up to date. -/
theorem of_refreshAll (pools : Pools) :
    Counterparts (fun kind old new => new = old ∧ kind.isNamed = true) pools pools.refreshAll where
  items := by
    rintro kind _ index ⟨rfl, named⟩ -
    have there : pools.refreshAll.get? kind index = pools.get? kind index := by
      have same : (refresh : Item kind → Item kind) = id := by cases kind <;> first | rfl | cases named
      rw [get?_refreshAll (by rintro rfl; cases named), same, Option.map_id, id]
    rcases found : pools.get? kind index with _ | item
    · exact .inl ⟨rfl, there.trans found⟩
    · refine .inr ⟨item, item, rfl, there.trans found, rfl, List.forall₂_same.mpr fun slot member => ⟨rfl, ?_⟩⟩
      rcases slot.index with _ | target
      · exact .inr ⟨rfl, by rintro _ ⟨⟩⟩
      · exact .inl ⟨target, target, rfl, rfl, rfl, isNamed_of_slots named item slot member⟩

/-- Offsets that references come to know do not matter. -/
theorem of_planned {header : Header} {before after : Pools} {layout : Layout}
    (planned : Layout.Planned header before layout after) : Counterparts (fun _ old new => new = old) before after where
  items := by
    rintro kind _ index rfl -
    obtain ⟨edit, same, relocated⟩ := planned.pools kind
    have there : after.get? kind index = (before.get? kind index).map edit := by
      rw [get?, same, Pool.get?_map, get?]
    rcases found : before.get? kind index with _ | item
    · exact .inl ⟨rfl, by rw [there, found]; rfl⟩
    · refine .inr ⟨item, edit item, rfl, by rw [there, found]; rfl, (relocated item).alike.form, ?_⟩
      have slots : slots (edit item) = slots item := by
        rw [slots_eq, slots_eq]
        exact (relocated item).alike.slots
      rw [slots]
      refine List.forall₂_same.mpr fun slot _ => ⟨rfl, ?_⟩
      rcases slot.index with _ | target
      · exact .inr ⟨rfl, by rintro _ ⟨⟩⟩
      · exact .inl ⟨target, target, rfl, rfl, rfl⟩

end Counterparts

namespace Pools

/-- Whatever stays up to date has the same name afterwards. -/
theorem nameOfHeld?_refreshAll (pools : Pools) : pools.refreshAll.nameOfHeld? = pools.nameOfHeld? := by
  funext one
  rw [nameOfHeld?, nameOfHeld?]
  congr 1
  funext index
  by_cases named : one.kind.isNamed = true
  · exact ((Counterparts.of_refreshAll pools).name_eq ⟨rfl, named⟩).symm
  · cases kind : one.kind <;> first | rfl | exact absurd (kind ▸ rfl) named

theorem fieldKey?_refreshAll (pools : Pools) : pools.refreshAll.fieldKey? = pools.fieldKey? := by
  funext entry
  rw [fieldKey?, fieldKey?]
  congr 1
  funext index
  exact ((Counterparts.of_refreshAll pools).fieldKey_eq ⟨rfl, rfl⟩).symm

theorem paired_refreshAll (pools : Pools) (fields : List DefinedField) (values : List ValueSlot) :
    pools.refreshAll.paired fields values = pools.paired fields values := by
  have namedValue : pools.refreshAll.namedValue = pools.namedValue := by
    funext slot
    rw [Pools.namedValue, Pools.namedValue, nameOfHeld?_refreshAll]
  rw [paired, paired, fieldKey?_refreshAll, namedValue]

/-- Static fields are put in the order of their indices, and values stay where they are. -/
theorem statics?_refreshAll (pools : Pools) (index : UInt32) : pools.refreshAll.statics? index =
    (pools.statics? index).map fun statics => (DefinedField.sort statics.1, statics.2) := by
  have resolve {target : PoolKind} (other : target ≠ .annotationSet) (ref : DataRef target) :
      pools.refreshAll.resolve? ref = (pools.resolve? ref).map refresh := by
    rw [resolve?, resolve?, Option.map_bind]
    congr 1
    funext index
    exact get?_refreshAll other pools index
  rw [statics?, statics?, get?_refreshAll (by decide), Option.map_bind, Option.bind_map]
  congr 1
  funext definition
  change ((pools.refreshAll.resolve? definition.classData).bind fun data =>
    (pools.refreshAll.resolve? definition.staticValues).map _) = (pools.staticsOf? definition).map _
  rw [resolve (by decide), resolve (by decide), staticsOf?, Option.map_bind, Option.bind_map]
  congr 1
  funext data
  simp only [Function.comp_apply, Option.map_map]
  congr 1
  funext values
  exact congrArg (Prod.mk _) (List.map_id _)

end Pools

/-- What a class has when it is written: its static fields in the order of their indices, and its values where they
were. -/
theorem Image.initials_of_write {image after : Image} {bytes : Bytes} {index : UInt32} {fields : List DefinedField}
    {values : List ValueSlot} (statics : image.pools.statics? index = some (fields, values))
    (success : image.write = (.ok bytes, after)) :
    after.pools.initials index = some (image.pools.paired (DefinedField.sort fields) values) := by
  obtain ⟨layout, written⟩ := Image.write_eq_ok.mp success
  rw [← (Counterparts.of_planned written.planned).initials_eq rfl, initials, statics?_refreshAll, statics]
  exact congrArg some (paired_refreshAll _ _ _)

end DexImage
