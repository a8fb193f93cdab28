import Njs.Objects.Define

/-!
# Merging a descriptor

The checks and the merge of `njs_object_prop_define` are those of ECMAScript for a property that
has the form that definitions give it. Only values are compared differently: as `===` does.
-/

namespace Njs.Objects

variable {prev prop : Property} {p : OwnProperty} {d : Descriptor} {v : Value}

/-- An attribute that is set. -/
def Attribute.ofBool (b : Bool) : Attribute := if b then yes else no

/-- An attribute of a descriptor. -/
def Attribute.ofField : Option Bool → Attribute
  | none => unset
  | some b => ofBool b

/-- The form in which a property is kept. A data property that was once an accessor may still have
its functions. -/
inductive Kept : Property → OwnProperty → Prop
  | data (v : Value) (getter setter : Option Value) (writable enumerable configurable : Bool) :
    Kept ⟨.property, some v, getter, setter, .ofBool writable, .ofBool enumerable,
      .ofBool configurable⟩ (.data v writable enumerable configurable)
  | accessor (get set : Value) (enumerable configurable : Bool) :
    Kept ⟨.property, none, some get, some set, .unset, .ofBool enumerable,
      .ofBool configurable⟩ (.accessor get set enumerable configurable)

/-- The property that is kept in some form. -/
def ownProperty (prop : Property) : OwnProperty :=
  if prop.isData then
    .data (prop.value.getD .undefined) prop.writable.holds prop.enumerable.holds
      prop.configurable.holds
  else
    .accessor (prop.getter.getD .undefined) (prop.setter.getD .undefined) prop.enumerable.holds
      prop.configurable.holds

/-- The property that is read from a descriptor. -/
def Descriptor.toProperty (d : Descriptor) : Property :=
  ⟨.property, d.value, d.get, d.set, .ofField d.writable, .ofField d.enumerable,
    .ofField d.configurable⟩

/-- Values as `===` compares them. -/
def strictSame (w v : Value) : Bool := strictEqual (some w) (some v)

/-! ## Attributes -/

@[simp] theorem Attribute.ofBool_holds (b : Bool) : (Attribute.ofBool b).holds = b := by
  cases b <;> rfl

@[simp] theorem Attribute.ofField_eq_unset (b : Option Bool) :
    Attribute.ofField b = .unset ↔ b = none := by
  cases b with
  | none => simp [ofField]
  | some b => cases b <;> simp [ofField, ofBool]

@[simp] theorem Attribute.ofField_eq_yes (b : Option Bool) :
    Attribute.ofField b = .yes ↔ b = some true := by
  cases b with
  | none => simp [ofField]
  | some b => cases b <;> simp [ofField, ofBool]

theorem Attribute.ofField_orNo (b : Option Bool) :
    (Attribute.ofField b).orNo = .ofBool (b.getD false) := by
  cases b with
  | none => rfl
  | some b => cases b <;> rfl

@[simp] theorem Attribute.no_holds : Attribute.no.holds = false := by
  rfl

@[simp] theorem Attribute.ofField_orElse (b : Option Bool) (c : Bool) :
    (Attribute.ofField b).orElse (.ofBool c) = .ofBool (b.getD c) := by
  cases b with
  | none => rfl
  | some b => cases b <;> rfl

/-! ## Kinds -/

theorem Kept.ownProperty_eq (h : Kept prop p) : ownProperty prop = p := by
  cases h with
  | data v getter setter writable enumerable configurable => simp [ownProperty, Property.isData]
  | accessor get set enumerable configurable => simp [ownProperty, Property.isData]

theorem Descriptor.isData_toProperty (d : Descriptor) : d.toProperty.isData = d.isData := by
  simp only [toProperty, Property.isData, isData, ne_eq, Attribute.ofField_eq_unset]
  cases d.value <;> cases d.writable <;> rfl

theorem isFunctionOrUndefined_field {field : Option Value}
    (h : ∀ v, field = some v → isFunctionOrUndefined (some v) = true) :
    isFunctionOrUndefined field = field.isSome := by
  cases field with
  | none => rfl
  | some v => exact h v rfl

theorem Descriptor.isAccessor_toProperty (d : Descriptor) :
    d.toProperty.isAccessor = d.isAccessor := by
  simp only [toProperty, Property.isAccessor, isAccessor,
    isFunctionOrUndefined_field d.get_callable, isFunctionOrUndefined_field d.set_callable]

/-- A descriptor is not both. -/
theorem Descriptor.isData_of_isAccessor (h : d.isAccessor = true) : d.isData = false := by
  cases hdata : d.isData with
  | false => rfl
  | true =>
    have hget : d.get.isSome ∨ d.set.isSome := by simpa [isAccessor] using h
    have hvalue : d.value.isSome ∨ d.writable.isSome := by simpa [isData] using hdata
    exact absurd ⟨hget, hvalue⟩ d.kind

theorem Descriptor.isGeneric_toProperty (d : Descriptor) :
    d.toProperty.isGeneric = (!d.isData && !d.isAccessor) := by
  rw [Property.isGeneric, d.isData_toProperty, d.isAccessor_toProperty]

theorem isData_data {getter setter : Option Value} {writable enumerable configurable : Attribute} :
    (Property.mk .property (some v) getter setter writable enumerable configurable).isData =
      true := by
  simp [Property.isData]

theorem isData_accessor {getter setter : Option Value} {enumerable configurable : Attribute} :
    (Property.mk .property none getter setter .unset enumerable configurable).isData =
      false := by
  simp [Property.isData]

/-! ## The checks -/

theorem attributesRefused_eq (prev : Property) (d : Descriptor) {configurable enumerable : Bool}
    (hconfigurable : prev.configurable = .ofBool configurable)
    (henumerable : prev.enumerable = .ofBool enumerable) :
    attributesRefused prev d.toProperty =
      !(configurable || (d.configurable ≠ some true && d.enumerable.all (· = enumerable))) := by
  rw [attributesRefused, hconfigurable, henumerable, Attribute.ofBool_holds]
  simp only [Descriptor.toProperty, Attribute.ofField_eq_yes]
  cases configurable with
  | true => rfl
  | false =>
    rcases d.configurable with _ | _ | _ <;> rcases d.enumerable with _ | _ | _ <;>
      cases enumerable <;> rfl

theorem Kept.attributesRefused_eq (h : Kept prev p) (d : Descriptor) :
    attributesRefused prev d.toProperty =
      !(p.configurable || (d.configurable ≠ some true && d.enumerable.all (· = p.enumerable))) := by
  cases h with
  | data v getter setter writable enumerable configurable =>
    exact Njs.Objects.attributesRefused_eq _ d rfl rfl
  | accessor get set enumerable configurable =>
    exact Njs.Objects.attributesRefused_eq _ d rfl rfl

theorem differs_eq (field : Option Value) (v : Value) :
    differs field (some v) = !agrees strictSame field v := by
  cases field <;> rfl

/-- What can be configured is not refused. -/
theorem fieldsRefused_of_configurable (h : prev.configurable.holds = true) :
    fieldsRefused prev prop = false := by
  unfold fieldsRefused
  rw [h]
  simp

theorem fieldsRefused_data (d : Descriptor) (getter setter : Option Value)
    (writable enumerable : Bool) :
    fieldsRefused ⟨.property, some v, getter, setter, .ofBool writable, .ofBool enumerable, .no⟩
        d.toProperty =
      !(!d.isAccessor && (writable || d.writable ≠ some true) &&
        (writable || agrees strictSame d.value v)) := by
  unfold fieldsRefused
  rw [d.isGeneric_toProperty, d.isData_toProperty, isData_data]
  simp only [Attribute.ofBool_holds, Property.isHandler, Descriptor.toProperty,
    Attribute.ofField_eq_yes, differs_eq, Attribute.no_holds]
  cases haccessor : d.isAccessor with
  | true =>
    rw [d.isData_of_isAccessor haccessor]
    simp
  | false =>
    cases hdata : d.isData with
    | true =>
      simp only [Bool.not_true, Bool.not_false, Bool.and_true]
      cases writable <;> simp
    | false =>
      have hnone : d.value = none ∧ d.writable = none := by
        simpa [Descriptor.isData] using hdata
      simp [hnone.1, hnone.2, agrees]

theorem fieldsRefused_accessor (d : Descriptor) (get set : Value) (enumerable : Bool) :
    fieldsRefused ⟨.property, none, some get, some set, .unset, .ofBool enumerable, .no⟩
        d.toProperty =
      !(!d.isData && (agrees strictSame d.get get && agrees strictSame d.set set)) := by
  unfold fieldsRefused
  rw [d.isGeneric_toProperty, d.isData_toProperty, isData_accessor]
  simp only [Descriptor.toProperty, differs_eq, Attribute.no_holds]
  cases hdata : d.isData with
  | true => simp
  | false =>
    cases haccessor : d.isAccessor with
    | true => simp
    | false =>
      have hnone : d.get = none ∧ d.set = none := by
        simpa [Descriptor.isAccessor] using haccessor
      simp [hnone.1, hnone.2, agrees]

/-- A property is refused exactly if ECMAScript refuses it, but for the comparison of values. -/
theorem Kept.refused (h : Kept prev p) (d : Descriptor) :
    (attributesRefused prev d.toProperty || fieldsRefused prev d.toProperty) =
      !(p.allows d && p.keeps strictSame d) := by
  rw [h.attributesRefused_eq]
  cases h with
  | data v getter setter writable enumerable configurable =>
    cases configurable with
    | true =>
      rw [fieldsRefused_of_configurable (Attribute.ofBool_holds true)]
      simp [OwnProperty.allows, OwnProperty.keeps, OwnProperty.configurable]
    | false =>
      have hfields := fieldsRefused_data (v := v) d getter setter writable enumerable
      simp only [Attribute.ofBool, Bool.false_eq_true, if_false] at hfields ⊢
      rw [hfields]
      simp only [OwnProperty.allows, OwnProperty.keeps, OwnProperty.configurable,
        OwnProperty.enumerable, Bool.false_or]
      simp only [Bool.not_and, Bool.and_assoc, Bool.or_assoc]
  | accessor get set enumerable configurable =>
    cases configurable with
    | true =>
      rw [fieldsRefused_of_configurable (Attribute.ofBool_holds true)]
      simp [OwnProperty.allows, OwnProperty.keeps, OwnProperty.configurable]
    | false =>
      have hfields := fieldsRefused_accessor d get set enumerable
      simp only [Attribute.ofBool, Bool.false_eq_true, if_false] at hfields ⊢
      rw [hfields]
      simp only [OwnProperty.allows, OwnProperty.keeps, OwnProperty.configurable,
        OwnProperty.enumerable, Bool.false_or]
      simp only [Bool.not_and, Bool.and_assoc, Bool.or_assoc]

/-! ## The merge -/

theorem Attribute.ofField_none : Attribute.ofField none = .unset := by
  rfl

@[simp] theorem Attribute.ofField_none_orElse (a : Attribute) :
    (Attribute.ofField none).orElse a = a := by
  rfl

theorem orElse_some (field : Option Value) (v : Value) :
    (field.orElse fun _ => some v) = some (field.getD v) := by
  cases field <;> rfl

/-- The property with the fields of a descriptor. -/
def merged (prev prop : Property) : Property :=
  withAttributes (withFields (converted prev prop) prop) prop

theorem merged_data_accessor (h : d.isAccessor = true) (getter setter : Option Value)
    (writable enumerable configurable : Bool) :
    merged ⟨.property, some v, getter, setter, .ofBool writable, .ofBool enumerable,
        .ofBool configurable⟩ d.toProperty =
      ⟨.property, none, some (d.get.getD .undefined), some (d.set.getD .undefined), .unset,
        .ofBool (d.enumerable.getD enumerable), .ofBool (d.configurable.getD configurable)⟩ := by
  have hdata := d.isData_of_isAccessor h
  have hnone : d.value = none ∧ d.writable = none := by
    simpa [Descriptor.isData] using hdata
  have hconverted : converted ⟨.property, some v, getter, setter, .ofBool writable,
      .ofBool enumerable, .ofBool configurable⟩ d.toProperty =
        ⟨.property, none, some .undefined, some .undefined, .unset, .ofBool enumerable,
          .ofBool configurable⟩ := by
    unfold converted
    rw [d.isGeneric_toProperty, d.isData_toProperty, isData_data, h, hdata]
    simp
  unfold merged
  rw [hconverted]
  simp only [withAttributes, withFields, Property.isHandler, Descriptor.toProperty, hnone.1,
    hnone.2, orElse_some, Attribute.ofField_orElse, Attribute.ofField_none_orElse]
  simp

theorem merged_data (h : d.isAccessor = false) (getter setter : Option Value)
    (writable enumerable configurable : Bool) :
    merged ⟨.property, some v, getter, setter, .ofBool writable, .ofBool enumerable,
        .ofBool configurable⟩ d.toProperty =
      ⟨.property, some (d.value.getD v), getter, setter, .ofBool (d.writable.getD writable),
        .ofBool (d.enumerable.getD enumerable), .ofBool (d.configurable.getD configurable)⟩ := by
  have hnone : d.get = none ∧ d.set = none := by
    simpa [Descriptor.isAccessor] using h
  have hconverted : converted ⟨.property, some v, getter, setter, .ofBool writable,
      .ofBool enumerable, .ofBool configurable⟩ d.toProperty =
        ⟨.property, some v, getter, setter, .ofBool writable, .ofBool enumerable,
          .ofBool configurable⟩ := by
    unfold converted
    rw [d.isGeneric_toProperty, d.isData_toProperty, isData_data, h]
    apply if_pos
    cases d.isData <;> simp
  unfold merged
  rw [hconverted]
  simp only [withAttributes, withFields, Property.isHandler, Descriptor.toProperty, hnone.1,
    hnone.2, orElse_some, Attribute.ofField_orElse]
  simp

theorem merged_accessor_data (h : d.isData = true) (get set : Value)
    (enumerable configurable : Bool) :
    merged ⟨.property, none, some get, some set, .unset, .ofBool enumerable,
        .ofBool configurable⟩ d.toProperty =
      ⟨.property, some (d.value.getD .undefined), none, none, .ofBool (d.writable.getD false),
        .ofBool (d.enumerable.getD enumerable), .ofBool (d.configurable.getD configurable)⟩ := by
  have haccessor : d.isAccessor = false := by
    cases haccessor : d.isAccessor with
    | false => rfl
    | true =>
      rw [d.isData_of_isAccessor haccessor] at h
      cases h
  have hnone : d.get = none ∧ d.set = none := by
    simpa [Descriptor.isAccessor] using haccessor
  have hconverted : converted ⟨.property, none, some get, some set, .unset, .ofBool enumerable,
      .ofBool configurable⟩ d.toProperty =
        ⟨.property, some .undefined, none, none, .ofBool false, .ofBool enumerable,
          .ofBool configurable⟩ := by
    unfold converted
    rw [d.isGeneric_toProperty, d.isData_toProperty, isData_accessor, h]
    simp [Attribute.ofBool]
  unfold merged
  rw [hconverted]
  simp only [withAttributes, withFields, Property.isHandler, Descriptor.toProperty, hnone.1,
    hnone.2, orElse_some, Attribute.ofField_orElse]
  simp

theorem merged_accessor (h : d.isData = false) (get set : Value)
    (enumerable configurable : Bool) :
    merged ⟨.property, none, some get, some set, .unset, .ofBool enumerable,
        .ofBool configurable⟩ d.toProperty =
      ⟨.property, none, some (d.get.getD get), some (d.set.getD set), .unset,
        .ofBool (d.enumerable.getD enumerable), .ofBool (d.configurable.getD configurable)⟩ := by
  have hnone : d.value = none ∧ d.writable = none := by
    simpa [Descriptor.isData] using h
  have hconverted : converted ⟨.property, none, some get, some set, .unset, .ofBool enumerable,
      .ofBool configurable⟩ d.toProperty =
        ⟨.property, none, some get, some set, .unset, .ofBool enumerable,
          .ofBool configurable⟩ := by
    unfold converted
    rw [d.isGeneric_toProperty, d.isData_toProperty, isData_accessor, h]
    apply if_pos
    simp
  unfold merged
  rw [hconverted]
  simp only [withAttributes, withFields, Property.isHandler, Descriptor.toProperty, hnone.1,
    hnone.2, orElse_some, Attribute.ofField_orElse, Attribute.ofField_none_orElse]
  simp

/-- The merged property is that of ECMAScript. -/
theorem Kept.merged (h : Kept prev p) (d : Descriptor) :
    Kept (Njs.Objects.merged prev d.toProperty) (p.apply d) := by
  cases h with
  | data v getter setter writable enumerable configurable =>
    simp only [OwnProperty.apply]
    cases haccessor : d.isAccessor with
    | true =>
      rw [merged_data_accessor haccessor, if_pos rfl]
      exact .accessor _ _ _ _
    | false =>
      rw [merged_data haccessor, if_neg Bool.false_ne_true]
      exact .data _ _ _ _ _ _
  | accessor get set enumerable configurable =>
    simp only [OwnProperty.apply]
    cases hdata : d.isData with
    | true =>
      rw [merged_accessor_data hdata, if_pos rfl]
      exact .data _ _ _ _ _ _
    | false =>
      rw [merged_accessor hdata, if_neg Bool.false_ne_true]
      exact .accessor _ _ _ _

/-- The property that is completed is that of ECMAScript. -/
theorem kept_completed (d : Descriptor) : Kept (completed d.toProperty) d.complete := by
  have hisAccessor := d.isAccessor_toProperty
  unfold completed Descriptor.complete
  rw [hisAccessor]
  cases haccessor : d.isAccessor with
  | true =>
    have hnone : d.value = none ∧ d.writable = none := by
      simpa [Descriptor.isData] using d.isData_of_isAccessor haccessor
    simp only [if_true, Descriptor.toProperty, hnone.1, hnone.2, Attribute.ofField_orNo,
      Attribute.ofField_none]
    exact .accessor _ _ _ _
  | false =>
    simp only [Bool.false_eq_true, if_false, Descriptor.toProperty, Attribute.ofField_orNo]
    exact .data _ _ _ _ _ _

end Njs.Objects
