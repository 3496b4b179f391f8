import PlotJugglerCore.Codec.Strict
import PlotJugglerCore.Codec.Unknown
import PlotJugglerCore.Derived.Derivative
import PlotJugglerCore.Derived.Evolution
import PlotJugglerCore.Derived.JoinParity
import PlotJugglerCore.Derived.Names
import PlotJugglerCore.Derived.Parity
import PlotJugglerCore.Derived.Reading
import PlotJugglerCore.Derived.Registration
import PlotJugglerCore.Object.Retention
import PlotJugglerCore.Object.Runs
import PlotJugglerCore.Plugins.DialogEvents
import PlotJugglerCore.Plugins.RuntimeCatalog
import PlotJugglerCore.Plugins.ToolboxHost
import PlotJugglerCore.Sdk.MediaMetadata
import PlotJugglerCore.Store.Appends
import PlotJugglerCore.Store.Decoders
import PlotJugglerCore.Store.Expansion
import PlotJugglerCore.Store.Handles
import PlotJugglerCore.Store.Ingest
import PlotJugglerCore.Store.Losses
import PlotJugglerCore.Store.Records
import PlotJugglerCore.Store.SeriesArrow
import PlotJugglerCore.Store.Splitting
import PlotJugglerCore.Store.Transfer
import PlotJugglerCore.Store.Ways
import PlotJugglerCore.Wire.Decoding
