import GuiMarkup.Markup.Tree
import GuiMarkup.Instance.Value

/-! Writing values back as markup. A single text property becomes an attribute, any other
property an `att.` element, handlers `ev.` elements and environment variables `env.`
elements; style content is left out at every level. -/

namespace GuiMarkup

open Markup

/-- A name with its `-binding` suffix, if any. -/
def withBinding (name : String) : Option String → String
  | some b => name ++ "-" ++ b
  | none => name

mutual

/-- Adds the markup of a value to an element. -/
def Value.emitInto : Value → Element → Element
  | .text t fromStyle _, e => if fromStyle then e else e.pushContent t
  | .setter s, e => emitSetter s e
  | .ctor c, e => emitCtor c e

/-- Adds the markup of a setter to an element. -/
def emitSetter (s : Setter) (e : Element) : Element :=
  if s.fromStyle then e
  else
    let e := match s.instanceName with
      | some n => if n.fromStyle then e else e.pushAttribute "ref.Name" n.name
      | none => e
    let e := emitProperties s.properties.entries e
    let e := s.handlers.entries.foldl (fun e (k, h) =>
      if h.fromStyle then e
      else e.push (.element (({ name := withBinding ("ev." ++ k) h.binding } : Element).push
        (.cdata h.script)))) e
    s.environment.entries.foldl (fun e (k, v) =>
      if v.fromStyle then e
      else e.push (.element (({ name := "env." ++ k } : Element).pushContent v.value))) e

/-- Adds the markup of properties, in order of their names. -/
def emitProperties : List (String × Property) → Element → Element
  | [], e => e
  | (k, p) :: rest, e =>
    let kept := p.values.filter (!·.fromStyle)
    let e :=
      if kept.isEmpty then e
      else if k == "" then emitValues false p.values e
      else match kept with
        | [.text t _ _] => e.pushAttribute (withBinding k p.binding) t
        | _ =>
          let prop := emitValues (kept.any (!·.isText)) p.values
            { name := withBinding ("att." ++ k) p.binding }
          e.push (.element prop)
    emitProperties rest e

/-- Adds the markup of values in order, leaving out text when `dropText` is set. -/
def emitValues (dropText : Bool) : List Value → Element → Element
  | [], e => e
  | v :: vs, e => emitValues dropText vs (if dropText && v.isText then e else v.emitInto e)

/-- Adds the element of a constructor. -/
def emitCtor (c : Ctor) (e : Element) : Element :=
  if c.setter.fromStyle then e
  else
    let el : Element := { name := c.qualifiedName }
    let el := match c.styleName with
      | some st => el.pushAttribute "ref.Style" st
      | none => el
    e.push (.element (emitSetter c.setter el))

end

end GuiMarkup
