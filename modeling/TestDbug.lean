import TestDbug.Transparency
import TestDbug.Attribution
import TestDbug.Images
import TestDbug.OwnLine
import TestDbug.Signals
import TestDbug.Waits
import TestDbug.Watch
import TestDbug.FailedStart
import TestDbug.Targets
import TestDbug.Faults
import TestDbug.Lookup
import TestDbug.Argv
import TestDbug.Input
import TestDbug.Placing
import TestDbug.Bases
import TestDbug.Bounds
import TestDbug.Symbols
import TestDbug.Overrun
import TestDbug.Endless
import TestDbug.Tracer
import TestDbug.WordsSession
import TestDbug.Stops
import TestDbug.Mixed
import TestDbug.Blog
