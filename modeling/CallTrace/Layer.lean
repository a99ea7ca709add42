import CallTrace.Text.Blank

namespace CallTrace

/-- What stands for every piece of metadata that could not be determined. -/
def unknownText : String := "Unknown"

structure Layer where
  label : String
  deriving DecidableEq, Repr

namespace Layer

def unknown : Layer := ⟨unknownText⟩

def controller : Layer := ⟨"Controller"⟩

def service : Layer := ⟨"Service"⟩

def repository : Layer := ⟨"Repository"⟩

def component : Layer := ⟨"Component"⟩

/-- The layer with a label; a blank label is the unknown layer. -/
def ofLabel (label : String) : Layer :=
  if Text.isBlank label then unknown else ⟨label⟩

def isUnknown (layer : Layer) : Bool :=
  layer.label == unknownText

end Layer

instance : Inhabited Layer := ⟨Layer.unknown⟩

end CallTrace
